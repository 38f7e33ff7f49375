import Mathlib.Data.Finset.Card
import MergeForm.Passes.Descent
import MergeForm.Proofs.WellNested

/-! Descent into functions and the graph of which function refers to which.  The graph may have
cycles.  A descent marks a function before it goes into it, so each time it goes further in there is
one function less to come; and whatever is marked gets all its references marked before the descent
is over. -/

namespace MergeForm

/-- The reference that a visit is, if it is one to a function. -/
def Visit.reference? : Visit → Option (Typing × FnId)
  | .exprForm (.untypedFn id) => some (.untyped, id)
  | .exprForm (.typedFn id) => some (.typed, id)
  | _ => none

/-- Below the visit `v`, or at `v` itself, the default traversal meets a reference to `id`. -/
inductive Visit.Refers (a : Arena) : Visit → FnId → Prop
  | here {v : Visit} {t : Typing} {id : FnId} : v.reference? = some (t, id) → Refers a v id
  | deeper {v w : Visit} {id : FnId} : .ok w ∈ a.steps v → Refers a w id → Refers a v id

namespace Arena

def HasFunction (a : Arena) (id : FnId) : Prop := ∃ f, a.function? id = some f

/-- The functions that can be reached from the visit `v`: those that it refers to, and those that
the functions reached refer to, as far as they exist. -/
inductive Reaches (a : Arena) (v : Visit) : FnId → Prop
  | entry {id : FnId} : v.Refers a id → a.HasFunction id → Reaches a v id
  | body {g id : FnId} {f : Function} : Reaches a v g → a.function? g = some f →
    (Visit.function f).Refers a id → a.HasFunction id → Reaches a v id

/-- The numbers of the functions. -/
def functionIds (a : Arena) : List FnId := (List.range a.functions.size).map Id.ofIndex

theorem mem_functionIds (a : Arena) {id : FnId} {f : Function} (h : a.function? id = some f) :
    id ∈ a.functionIds := by
  obtain ⟨hlt, -⟩ := Array.getElem?_eq_some_iff.mp h
  exact List.mem_map.mpr ⟨id.index, List.mem_range.mpr hlt, id.ofIndex_index⟩

theorem steps_of_reference (a : Arena) {v : Visit} {t : Typing} {id : FnId}
    (h : v.reference? = some (t, id)) : a.steps v = [] := by
  cases v with
  | exprForm f => cases f <;> first | rfl | simp [Visit.reference?] at h
  | _ => simp [Visit.reference?] at h

end Arena

namespace Descent

/-- The functions gone into, in order. -/
def funcs (d : Descent) : List FnId := d.entered.toList.map Entered.func

@[simp] theorem funcs_start : start.funcs = [] := rfl

variable {a : Arena} {d d' : Descent} {depth : Nat} {steps : List (Except Fault Visit)}
  {stop : Option Fault}

/-! ### One hook -/

theorem hook_eq (a : Arena) (v : Visit) (d : Descent) :
    (Pass.descend a).hook v d =
      match v.reference? with
      | some (t, id) => d.follow a t id
      | none => (a.move () v, d) := by
  cases v with
  | exprForm f => cases f <;> rfl
  | _ => rfl

/-- What is done at a visit: the default steps, if it is no reference; nothing, if it is one to a
function met before or to none; and else the visit of the function. -/
theorem hook_cases (a : Arena) (v : Visit) (d : Descent) :
    (v.reference? = none ∧ ((Pass.descend a).hook v d).1.steps = a.steps v ∧
        ((Pass.descend a).hook v d).2 = d) ∨
      ∃ t id, v.reference? = some (t, id) ∧
        ((id ∈ d.seen ∧ ((Pass.descend a).hook v d).1.steps = [] ∧
            ((Pass.descend a).hook v d).2 = d) ∨
          (a.function? id = none ∧ ((Pass.descend a).hook v d).1.steps = [] ∧
            ((Pass.descend a).hook v d).2 = ⟨id :: d.seen, d.entered⟩) ∨
          ∃ f, id ∉ d.seen ∧ a.function? id = some f ∧
            ((Pass.descend a).hook v d).1.steps = [.ok (.function f)] ∧
              ((Pass.descend a).hook v d).2 = ⟨id :: d.seen, d.entered.push ⟨t, id⟩⟩) := by
  rw [hook_eq]
  cases hv : v.reference? with
  | none => exact .inl ⟨rfl, rfl, rfl⟩
  | some r =>
    obtain ⟨t, id⟩ := r
    refine .inr ⟨t, id, rfl, ?_⟩
    by_cases hseen : id ∈ d.seen
    · exact .inl ⟨hseen, by simp [follow, hseen, Move.leaf, Move.steps], by simp [follow, hseen]⟩
    · cases hf : a.function? id with
      | none =>
        refine .inr (.inl ⟨rfl, ?_, ?_⟩)
        · simp [follow, hseen, hf, Move.leaf, Move.steps]
        · simp [follow, hseen, hf]
      | some f =>
        refine .inr (.inr ⟨f, hseen, rfl, ?_, ?_⟩)
        · simp [follow, hseen, hf, Move.steps, Task.steps]
        · simp [follow, hseen, hf]

/-- A hook either leaves the functions gone into as they are or goes into one more. -/
theorem funcs_hook (a : Arena) (v : Visit) (d : Descent) :
    ((Pass.descend a).hook v d).2.funcs = d.funcs ∨
      ∃ t id f, v.reference? = some (t, id) ∧ a.function? id = some f ∧
        ((Pass.descend a).hook v d).1.steps = [.ok (.function f)] ∧
          ((Pass.descend a).hook v d).2.funcs = d.funcs ++ [id] := by
  rcases hook_cases a v d with ⟨-, -, hstate⟩ | ⟨t, id, hv, ⟨-, -, hstate⟩ | ⟨-, -, hstate⟩ |
    ⟨f, -, hf, hsteps, hstate⟩⟩
  · exact .inl (by rw [hstate])
  · exact .inl (by rw [hstate])
  · exact .inl (by rw [hstate]; rfl)
  · exact .inr ⟨t, id, f, hv, hf, hsteps, by simp [hstate, funcs]⟩

/-- What a visit refers to is marked right at the visit or referred to below it. -/
theorem refers_hook {v : Visit} {id : FnId} (h : v.Refers a id) (d : Descent) :
    id ∈ ((Pass.descend a).hook v d).2.seen ∨
      ∃ w, .ok w ∈ ((Pass.descend a).hook v d).1.steps ∧ w.Refers a id := by
  rcases hook_cases a v d with ⟨hv, hsteps, -⟩ | ⟨t, j, hv, hcase⟩
  · cases h with
    | here hid => simp [hv] at hid
    | deeper hw hrefers => exact .inr ⟨_, hsteps ▸ hw, hrefers⟩
  · cases h with
    | here hid =>
      obtain ⟨-, rfl⟩ : t = _ ∧ j = id := by simpa [hv] using hid
      rcases hcase with ⟨hseen, -, hstate⟩ | ⟨-, -, hstate⟩ | ⟨f, -, -, -, hstate⟩
      · exact .inl (by rw [hstate]; exact hseen)
      · exact .inl (by simp [hstate])
      · exact .inl (by simp [hstate])
    | deeper hw => simp [a.steps_of_reference hv] at hw

/-! ### What every descent keeps -/

/-- Marks stay. -/
theorem seen_subset (h : (Pass.descend a).Runs depth steps d stop d') : d.seen ⊆ d'.seen := by
  refine h.invariant (P := fun e => d.seen ⊆ e.seen) (fun v e hsub => ?_) (List.Subset.refl _)
  rcases hook_cases a v e with ⟨-, -, hstate⟩ | ⟨t, id, -, ⟨-, -, hstate⟩ | ⟨-, -, hstate⟩ |
    ⟨f, -, -, -, hstate⟩⟩
  all_goals rw [hstate]
  · exact hsub
  · exact hsub
  · exact fun x hx => List.mem_cons_of_mem _ (hsub hx)
  · exact fun x hx => List.mem_cons_of_mem _ (hsub hx)

/-- No function has been gone into twice, and those gone into are those marked that exist. -/
structure Tidy (a : Arena) (d : Descent) : Prop where
  nodup : d.funcs.Nodup
  mem_funcs : ∀ id, id ∈ d.funcs ↔ id ∈ d.seen ∧ a.HasFunction id

theorem tidy_start (a : Arena) : start.Tidy a := ⟨List.nodup_nil, by simp [start, funcs]⟩

theorem Tidy.hook (h : d.Tidy a) (v : Visit) : ((Pass.descend a).hook v d).2.Tidy a := by
  rcases hook_cases a v d with ⟨-, -, hstate⟩ | ⟨t, id, -, ⟨-, -, hstate⟩ | ⟨hf, -, hstate⟩ |
    ⟨f, hnew, hf, -, hstate⟩⟩
  all_goals rw [hstate]
  · exact h
  · exact h
  · have hno : ¬a.HasFunction id := by simp [Arena.HasFunction, hf]
    refine ⟨h.nodup, fun j => (h.mem_funcs j).trans (and_congr_left fun hj => ?_)⟩
    have hne : j ≠ id := fun hid => hno (hid ▸ hj)
    simp [hne]
  · have hfuncs : funcs ⟨id :: d.seen, d.entered.push ⟨t, id⟩⟩ = d.funcs ++ [id] := by simp [funcs]
    have hhas : a.HasFunction id := ⟨f, hf⟩
    have hout : id ∉ d.funcs := fun hmem => hnew ((h.mem_funcs id).mp hmem).1
    refine ⟨?_, fun j => ?_⟩
    · rw [hfuncs, List.nodup_append]
      refine ⟨h.nodup, List.nodup_singleton id, ?_⟩
      rintro j hj _ hid rfl
      exact hout (List.mem_singleton.mp hid ▸ hj)
    · rw [hfuncs, List.mem_append, List.mem_singleton, h.mem_funcs, List.mem_cons]
      by_cases hj : j = id
      · simp [hj, hhas]
      · simp [hj]

theorem Tidy.runs (h : (Pass.descend a).Runs depth steps d stop d') (hd : d.Tidy a) : d'.Tidy a :=
  h.invariant (P := Tidy a) (fun v _ he => he.hook v) hd

/-! ### A descent ends -/

/-- How many functions have not been marked. -/
def unseen (a : Arena) (d : Descent) : Nat := (a.functionIds.toFinset \ d.seen.toFinset).card

theorem unseen_start_le (a : Arena) : start.unseen a ≤ a.functions.size := by
  refine (Finset.card_le_card Finset.sdiff_subset).trans ?_
  refine (List.toFinset_card_le _).trans ?_
  simp [Arena.functionIds]

theorem unseen_le (h : d.seen ⊆ d'.seen) : d'.unseen a ≤ d.unseen a := by
  refine Finset.card_le_card (Finset.sdiff_subset_sdiff (Finset.Subset.refl _) fun id hid => ?_)
  exact List.mem_toFinset.mpr (h (List.mem_toFinset.mp hid))

theorem unseen_lt {id : FnId} {f : Function} (hf : a.function? id = some f) (hnew : id ∉ d.seen)
    (h : d'.seen = id :: d.seen) : d'.unseen a < d.unseen a := by
  have hmem : id ∈ a.functionIds.toFinset \ d.seen.toFinset := by
    simp [a.mem_functionIds hf, hnew]
  rw [unseen, h, List.toFinset_cons, Finset.sdiff_insert]
  exact Finset.card_erase_lt_of_mem hmem

/-- The hook of a visit runs on: the default steps do, if the visit is no reference, and else each
function does from a state in which one less is to come. -/
theorem exists_runs_hook {v : Visit} {below : List Visit} {fault : Option Fault}
    {n : Nat} (ht : Trail a.steps n (a.steps v) below fault)
    (plain : ∃ stop e, (Pass.descend a).Runs depth (a.steps v) d stop e ∧
      (stop = none → fault = none))
    (enter : ∀ f e, e.unseen a < d.unseen a → ∃ stop e',
      (Pass.descend a).Runs depth [.ok (.function f)] e stop e') :
    ∃ stop e, (Pass.descend a).Runs depth ((Pass.descend a).hook v d).1.steps
      ((Pass.descend a).hook v d).2 stop e ∧ (stop = none → fault = none) := by
  rcases hook_cases a v d with ⟨-, hsteps, hstate⟩ | ⟨t, id, hv, hcase⟩
  · rw [hsteps, hstate]
    exact plain
  · -- The default traversal does nothing below a reference.
    rw [a.steps_of_reference hv] at ht
    cases ht
    rcases hcase with ⟨-, hsteps, hstate⟩ | ⟨-, hsteps, hstate⟩ | ⟨f, hnew, hf, hsteps, hstate⟩
    · rw [hsteps]
      exact ⟨none, _, .done, fun _ => rfl⟩
    · rw [hsteps]
      exact ⟨none, _, .done, fun _ => rfl⟩
    · obtain ⟨stop, e, hrun⟩ := enter f _ (unseen_lt hf hnew (congrArg seen hstate))
      exact ⟨stop, e, hsteps ▸ hrun, fun _ => rfl⟩

/-- A descent ends within the depth of the default traversal, once for each function that has not
been marked.  It may end at a fault before the default traversal does, but not without one where
that has one. -/
theorem exists_runs (h : a.WellNested) (u : Nat) : ∀ {n : Nat} {steps : List (Except Fault Visit)}
    {visits : List Visit} {fault : Option Fault}, Trail a.steps n steps visits fault →
      ∀ d : Descent, d.unseen a ≤ u → ∃ stop d',
        (Pass.descend a).Runs (u * a.reach + n) steps d stop d' ∧ (stop = none → fault = none) := by
  induction u using Nat.strongRecOn with
  | _ u ihu =>
    have enter {n : Nat} {d : Descent} (hd : d.unseen a ≤ u) (f : Function) (e : Descent)
        (he : e.unseen a < d.unseen a) : ∃ stop e',
          (Pass.descend a).Runs (u * a.reach + n) [.ok (.function f)] e stop e' := by
      obtain ⟨_, _, _, ht⟩ := h.exists_trail (fun _ _ => Visit.Under.step) [.ok (.function f)]
      obtain ⟨stop, e', hrun, -⟩ := ihu (u - 1) (by omega) (a.graded.trail_reach ht) e (by omega)
      obtain ⟨m, rfl⟩ : ∃ m, u = m + 1 := ⟨u - 1, by omega⟩
      refine ⟨stop, e', hrun.mono ?_⟩
      rw [Nat.add_sub_cancel, Nat.succ_mul]
      omega
    intro n steps visits fault ht
    induction ht with
    | done => exact fun d _ => ⟨none, d, .done, fun _ => rfl⟩
    | fault f rest => exact fun d _ => ⟨some f, d, .fault f rest, by simp⟩
    | @visit n v rest below after fault hb _ ihb iha =>
      intro d hd
      obtain ⟨stop, mid, hrun, -⟩ := exists_runs_hook hb (ihb d hd) (enter hd)
      cases stop with
      | some f => exact ⟨some f, mid, .broken hrun, by simp⟩
      | none =>
        have hseen : d.seen ⊆ mid.seen := seen_subset (.visit (v := v) hrun .done)
        obtain ⟨stop, d', hrest, hfault⟩ := iha mid ((unseen_le hseen).trans hd)
        exact ⟨stop, d', .visit hrun hrest, hfault⟩
    | @broken n v rest below f hb ihb =>
      intro d hd
      obtain ⟨stop, mid, hrun, hfault⟩ := exists_runs_hook hb (ihb d hd) (enter hd)
      cases stop with
      | some g => exact ⟨some g, mid, .broken hrun, by simp⟩
      | none => exact absurd (hfault rfl) (by simp)

/-! ### What a descent covers -/

/-- All references below the steps are marked, and so are those in the functions newly gone
into. -/
structure Covers (a : Arena) (steps : List (Except Fault Visit)) (d d' : Descent) : Prop where
  refers : ∀ v, .ok v ∈ steps → ∀ id, v.Refers a id → id ∈ d'.seen
  funcs : ∀ g ∈ d'.funcs, g ∈ d.funcs ∨
    ∀ f, a.function? g = some f → ∀ id, (Visit.function f).Refers a id → id ∈ d'.seen

theorem covers_of_runs (h : (Pass.descend a).Runs depth steps d stop d') (hstop : stop = none) :
    Covers a steps d d' := by
  induction h with
  | done => exact ⟨by simp, fun g hg => .inl hg⟩
  | fault => simp at hstop
  | broken => simp at hstop
  | @visit depth v rest d mid d' stop hrun hrest ihb iha =>
    obtain ⟨hbelow, hinner⟩ := ihb rfl
    obtain ⟨hafter, houter⟩ := iha hstop
    have hseen : mid.seen ⊆ d'.seen := seen_subset hrest
    refine ⟨fun w hw id hid => ?_, fun g hg => ?_⟩
    · rcases List.mem_cons.mp hw with hw | hw
      · obtain rfl : w = v := by simpa using hw
        rcases refers_hook hid d with hmark | ⟨u, hu, hrefers⟩
        · exact hseen (seen_subset hrun hmark)
        · exact hseen (hbelow u hu id hrefers)
      · exact hafter w hw id hid
    · rcases houter g hg with hg | hg
      · rcases hinner g hg with hg | hg
        · rcases funcs_hook a v d with hsame | ⟨t, j, f, -, hf, hsteps, hmore⟩
          · exact .inl (hsame ▸ hg)
          · rcases List.mem_append.mp (hmore ▸ hg) with hg | hg
            · exact .inl hg
            · -- The function just gone into is the one step below the reference to it.
              obtain rfl : g = j := List.mem_singleton.mp hg
              refine .inr fun f' hf' id hid => ?_
              obtain rfl : f = f' := Option.some.inj (hf.symm.trans hf')
              exact hseen (hbelow (.function f) (by simp [hsteps]) id hid)
        · exact .inr fun f hf id hid => hseen (hg f hf id hid)
      · exact .inr hg

section

variable {P : FnId → Prop}

/-- A set that holds the functions referred to below a visit, and with a function those referred to
in it, holds all that the hook of the visit goes into and all that is referred to below. -/
theorem within_hook
    (closed : ∀ g f id, P g → a.function? g = some f → (Visit.function f).Refers a id →
      a.HasFunction id → P id)
    {v : Visit} (hv : ∀ id, v.Refers a id → a.HasFunction id → P id) (hd : ∀ id ∈ d.funcs, P id) :
    (∀ w, .ok w ∈ ((Pass.descend a).hook v d).1.steps →
      ∀ id, w.Refers a id → a.HasFunction id → P id) ∧
    ∀ id ∈ ((Pass.descend a).hook v d).2.funcs, P id := by
  rcases hook_cases a v d with ⟨-, hsteps, hstate⟩ | ⟨t, id, href, ⟨-, hsteps, hstate⟩ |
    ⟨-, hsteps, hstate⟩ | ⟨f, -, hf, hsteps, hstate⟩⟩
  all_goals rw [hsteps, hstate]
  · exact ⟨fun w hw id hid => hv id (.deeper hw hid), hd⟩
  · exact ⟨by simp, hd⟩
  · exact ⟨by simp, hd⟩
  · have hP : P id := hv id (.here href) ⟨f, hf⟩
    constructor
    · intro w hw j hj
      obtain rfl : w = .function f := by simpa using hw
      exact closed id f j hP hf hj
    · intro j hj
      rcases (by simpa [funcs] using hj : j ∈ d.funcs ∨ j = id) with hj | rfl
      · exact hd j hj
      · exact hP

/-- A descent goes into no function outside a set that holds those referred to below its steps and,
with a function, those referred to in it. -/
theorem funcs_of_runs
    (closed : ∀ g f id, P g → a.function? g = some f → (Visit.function f).Refers a id →
      a.HasFunction id → P id)
    (h : (Pass.descend a).Runs depth steps d stop d')
    (hsteps : ∀ v, .ok v ∈ steps → ∀ id, v.Refers a id → a.HasFunction id → P id)
    (hd : ∀ id ∈ d.funcs, P id) : ∀ id ∈ d'.funcs, P id := by
  induction h with
  | done => exact hd
  | fault => exact hd
  | visit _ _ ihb iha =>
    obtain ⟨hbelow, hfuncs⟩ := within_hook closed (hsteps _ (List.mem_cons_self ..)) hd
    exact iha (fun w hw => hsteps w (List.mem_cons_of_mem _ hw)) (ihb hbelow hfuncs)
  | broken _ ih =>
    obtain ⟨hbelow, hfuncs⟩ := within_hook closed (hsteps _ (List.mem_cons_self ..)) hd
    exact ih hbelow hfuncs

end

/-- What a descent that gets through has gone into is what can be reached. -/
theorem mem_funcs_iff_reaches {v : Visit}
    (h : (Pass.descend a).Runs depth [.ok v] start none d) (id : FnId) :
    id ∈ d.funcs ↔ a.Reaches v id := by
  have htidy := Tidy.runs h (tidy_start a)
  obtain ⟨hrefers, hfuncs⟩ := covers_of_runs h rfl
  constructor
  · have closed (g : FnId) (f : Function) (id : FnId) (hg : a.Reaches v g)
        (hf : a.function? g = some f) (hid : (Visit.function f).Refers a id)
        (hhas : a.HasFunction id) : a.Reaches v id := .body hg hf hid hhas
    refine funcs_of_runs closed h (fun w hw id hid hhas => ?_) (by simp) id
    obtain rfl : w = v := by simpa using hw
    exact .entry hid hhas
  · intro hreach
    induction hreach with
    | entry hid hhas => exact (htidy.mem_funcs _).mpr ⟨hrefers v (by simp) _ hid, hhas⟩
    | @body g id f _ hf hid hhas ih =>
      have hin := (hfuncs g ih).resolve_left (by simp)
      exact (htidy.mem_funcs id).mpr ⟨hin f hf id hid, hhas⟩

end Descent

/-- The bound of the arena leaves room for the depth of the default traversal once for each
function and once for the start. -/
theorem Arena.functions_mul_reach_le (a : Arena) :
    a.functions.size * a.reach + a.reach ≤ a.depth := by
  have hreach : a.reach ≤ 16 * (a.exprs.size + a.stmts.size + 2) := by
    simp only [reach]
    omega
  calc a.functions.size * a.reach + a.reach = (a.functions.size + 1) * a.reach := by
        rw [Nat.succ_mul]
    _ ≤ (a.functions.size + 1) * (16 * (a.exprs.size + a.stmts.size + 2)) :=
        Nat.mul_le_mul_left _ hreach
    _ ≤ a.depth := Nat.mul_le_mul_right _ (by omega)

/-- Where no expression and no block contains itself, a descent into functions ends, however the
functions refer to each other.  It goes into no function twice, and if it gets through, it has gone
into those functions that can be reached, and into no others. -/
theorem descent_enters_reachable_once (a : Arena) (h : a.WellNested) (v : Visit) :
    (a.traverse (Pass.descend a) [.visit v] .start).1 ≠ .tooDeep ∧
      (a.traverse (Pass.descend a) [.visit v] .start).2.funcs.Nodup ∧
        ((∃ outs, (a.traverse (Pass.descend a) [.visit v] .start).1 = .ok outs) → ∀ id,
          id ∈ (a.traverse (Pass.descend a) [.visit v] .start).2.funcs ↔ a.Reaches v id) := by
  obtain ⟨_, _, _, ht⟩ := h.exists_trail (fun _ _ => Visit.Under.step) [.ok v]
  obtain ⟨stop, d, hrun, -⟩ := Descent.exists_runs h _ (a.graded.trail_reach ht) .start
    (Descent.unseen_start_le a)
  have hrun := hrun.mono a.functions_mul_reach_le
  obtain ⟨hend, hstop, hstate⟩ := hrun.perform_eq
  have hperform : a.traverse (Pass.descend a) [.visit v] .start =
      Pass.perform ((Pass.descend a).visit a.depth) [.ok v] .start := by
    rw [Arena.traverse, Pass.traverse_eq]
    rfl
  rw [hperform, hstate]
  refine ⟨hend, (Descent.Tidy.runs hrun (Descent.tidy_start a)).nodup, fun hok => ?_⟩
  obtain rfl : none = stop := (Outcome.exists_ok_iff.mp hok).2.symm.trans hstop
  exact Descent.mem_funcs_iff_reaches hrun

/-- Two functions that refer to each other, the second also to itself and to one that there is not,
and a third that neither refers to. -/
def mutualCalls : Arena where
  exprs := #[⟨.form (.untypedFn ⟨1⟩), .dummy⟩, ⟨.form (.typedFn ⟨0⟩), .dummy⟩,
    ⟨.form (.typedFn ⟨1⟩), .dummy⟩, ⟨.form (.untypedFn ⟨7⟩), .dummy⟩,
    ⟨.form (.tuple ⟨0, 3⟩), .dummy⟩]
  operands := #[⟨1⟩, ⟨2⟩, ⟨3⟩]
  stmts := #[⟨.form (.eval ⟨0⟩), .dummy⟩, ⟨.form (.ifElse ⟨2⟩ ⟨0, 1⟩ .empty .empty), .dummy⟩,
    ⟨.form (.ret ⟨4⟩), .dummy⟩]
  phis := #[]
  functions := #[⟨⟨0⟩, .untyped, [], ⟨1, 1⟩, .dummy⟩, ⟨⟨1⟩, .typed, [], ⟨2, 1⟩, .dummy⟩,
    ⟨⟨2⟩, .untyped, [], .empty, .dummy⟩]

theorem mutualCalls_enters_reachable_once :
    mutualCalls.WellNested ∧
      ∀ id, id ∈ [⟨1⟩, ⟨0⟩] ↔ mutualCalls.Reaches (.block ⟨1, 1⟩) id := by
  have hnested : mutualCalls.WellNested := Arena.Falls.wellNested (by decide)
  have hrun : (mutualCalls.traverse (Pass.descend mutualCalls) [.visit (.block ⟨1, 1⟩)]
          .start).1.fault? = none ∧
      (mutualCalls.traverse (Pass.descend mutualCalls) [.visit (.block ⟨1, 1⟩)] .start).2.funcs =
        [⟨1⟩, ⟨0⟩] := by
    rw [Arena.traverse, Pass.traverse_eq]
    decide
  obtain ⟨hend, -, hcovers⟩ := descent_enters_reachable_once mutualCalls hnested (.block ⟨1, 1⟩)
  rw [hrun.2] at hcovers
  exact ⟨hnested, hcovers (Outcome.exists_ok_iff.mpr ⟨hend, hrun.1⟩)⟩

end MergeForm
