import Mathlib.Data.List.Perm.Subperm
import MergeForm.Proofs.Steps

/-! The bound on the nesting of visits is large enough.  Where the visits that lie in one another
go on without end, one of the finitely many visits of stored nodes lies in itself; so a traversal
that ends at all ends within a bound that counts these visits. -/

namespace MergeForm

/-! ### The depth of a visit -/

/-- What is below `v` ends with visits nested at most `n` deep. -/
def Ends (next : Visit → List (Except Fault Visit)) (n : Nat) (v : Visit) : Prop :=
  ∃ below stop, Trail next n (next v) below stop

/-- The depth of what is below `v`: the least bound within which it ends. -/
def HasDepth (next : Visit → List (Except Fault Visit)) (n : Nat) (v : Visit) : Prop :=
  Ends next n v ∧ ∀ k < n, ¬Ends next k v

section

variable {next : Visit → List (Except Fault Visit)}

theorem Ends.mono {n m : Nat} {v : Visit} (h : Ends next n v) (hle : n ≤ m) : Ends next m v := by
  obtain ⟨below, stop, ht⟩ := h
  exact ⟨below, stop, ht.mono hle⟩

theorem Ends.exists_trail {steps : List (Except Fault Visit)}
    (h : ∀ v, .ok v ∈ steps → ∃ n, Ends next n v) :
    ∃ n visits stop, Trail next n steps visits stop := by
  induction steps with
  | nil => exact ⟨0, [], none, .done⟩
  | cons step rest ih =>
    cases step with
    | error f => exact ⟨0, [], some f, .fault f rest⟩
    | ok v =>
      obtain ⟨inner, below, stop, hb⟩ := h v (by simp)
      obtain ⟨outer, after, stop', ha⟩ := ih fun w hw => h w (List.mem_cons_of_mem _ hw)
      cases stop with
      | none =>
        have hb' := hb.mono (show inner ≤ max inner outer by omega)
        have ha' := ha.mono (show outer ≤ max inner outer + 1 by omega)
        exact ⟨max inner outer + 1, v :: (below ++ after), stop', .visit hb' ha'⟩
      | some f => exact ⟨inner + 1, v :: below, some f, .broken hb⟩

theorem Ends.hasDepth {n : Nat} {v : Visit} (h : Ends next n v) : ∃ m, HasDepth next m v := by
  induction n using Nat.strongRecOn with
  | _ n ih =>
    by_cases hk : ∃ k < n, Ends next k v
    · obtain ⟨k, hk, he⟩ := hk
      exact ih k hk he
    · exact ⟨n, h, fun k hkn he => hk ⟨k, hkn, he⟩⟩

theorem HasDepth.unique {n m : Nat} {v : Visit} (h : HasDepth next n v)
    (h' : HasDepth next m v) : n = m := by
  rcases Nat.lt_trichotomy n m with hlt | rfl | hlt
  · exact absurd h.1 (h'.2 n hlt)
  · rfl
  · exact absurd h'.1 (h.2 m hlt)

/-- Steps that end within one bound and not within the one before contain a visit that uses up the
bound. -/
theorem Trail.deepest {n : Nat} : ∀ {steps : List (Except Fault Visit)} {visits : List Visit}
    {stop : Option Fault}, Trail next (n + 1) steps visits stop →
      (¬∃ visits' stop', Trail next n steps visits' stop') →
      ∃ w, .ok w ∈ steps ∧ HasDepth next n w := by
  intro steps
  induction steps with
  | nil => exact fun _ hn => absurd ⟨[], none, .done⟩ hn
  | cons step rest ih =>
    intro visits stop h hn
    cases step with
    | error f => exact absurd ⟨[], some f, .fault f rest⟩ hn
    | ok v =>
      have hv : Ends next n v := by
        cases h with
        | visit hb _ => exact ⟨_, _, hb⟩
        | broken hb => exact ⟨_, _, hb⟩
      by_cases hk : ∃ k < n, Ends next k v
      · -- What is below `v` leaves room, so the visit is found behind `v`.
        obtain ⟨k, hk, below, stop', hb⟩ := hk
        obtain ⟨m, rfl⟩ : ∃ m, n = m + 1 := ⟨n - 1, by omega⟩
        have hb := hb.mono (show k ≤ m by omega)
        cases h with
        | visit hb' ha =>
          obtain ⟨-, rfl⟩ := hb.unique hb'
          have hrest : ¬∃ visits' stop', Trail next (m + 1) rest visits' stop' :=
            fun ⟨_, _, ht⟩ => hn ⟨_, _, .visit hb ht⟩
          obtain ⟨w, hw, hd⟩ := ih ha hrest
          exact ⟨w, List.mem_cons_of_mem _ hw, hd⟩
        | broken hb' =>
          obtain ⟨-, rfl⟩ := hb.unique hb'
          exact absurd ⟨_, _, .broken hb⟩ hn
      · exact ⟨v, by simp, hv, fun k hkn he => hk ⟨k, hkn, he⟩⟩

theorem HasDepth.below {n : Nat} {v : Visit} (h : HasDepth next (n + 1) v) :
    ∃ w, .ok w ∈ next v ∧ HasDepth next n w := by
  obtain ⟨⟨_, _, ht⟩, hleast⟩ := h
  exact ht.deepest (hleast n (by omega))

end

/-! ### Visits of stored nodes -/

namespace Arena

/-- Whether a visit is that of a stored statement, expression or target by its number. -/
def holds (a : Arena) : Visit → Bool
  | .stmt id => (a.stmt? id).isSome
  | .expr id => (a.expr? id).isSome
  | .target id => (a.expr? id).isSome
  | _ => false

def nodeVisits (a : Arena) : List Visit :=
  (List.range a.stmts.size).map (fun i => .stmt (Id.ofIndex i)) ++
    ((List.range a.exprs.size).map (fun i => .expr (Id.ofIndex i)) ++
      (List.range a.exprs.size).map fun i => .target (Id.ofIndex i))

theorem length_nodeVisits (a : Arena) :
    a.nodeVisits.length = a.stmts.size + 2 * a.exprs.size := by
  simp [nodeVisits]
  omega

theorem mem_nodeVisits {a : Arena} {v : Visit} (h : a.holds v = true) : v ∈ a.nodeVisits := by
  have index {f : Family} (id : Id f) {n : Nat} (hlt : id.index < n) :
      ∃ i < n, Id.ofIndex i = id := ⟨id.index, hlt, id.ofIndex_index⟩
  cases v with
  | stmt id => simpa [nodeVisits] using index id (by simpa [holds, stmt?] using h)
  | expr id => simpa [nodeVisits] using index id (by simpa [holds, expr?] using h)
  | target id => simpa [nodeVisits] using index id (by simpa [holds, expr?] using h)
  | _ => simp [holds] at h

/-- A rank of visits that falls on every step to a visit that is not one of a stored node. -/
def rank (a : Arena) (v : Visit) : Nat :=
  match v with
  | .stmt _ => if a.holds v then 6 else 0
  | .stmtForm _ => 5
  | .mergeIf _ | .loopRepeat _ => 4
  | .merge _ => 3
  | .phi _ | .function _ => 2
  | .block _ | .loopEntry _ | .exprList _ => 1
  | .expr _ => if a.holds v then 3 else 0
  | .exprForm _ => 2
  | .target _ => if a.holds v then 4 else 0
  | .targetForm _ => 3

theorem rank_lt (a : Arena) (v : Visit) : a.rank v < 8 := by
  unfold rank
  split <;> try split
  all_goals omega

/-- The depth that visits can have: so many of stored nodes, and after each fewer than eight of
others. -/
def reach (a : Arena) : Nat := 8 * (a.stmts.size + 2 * a.exprs.size) + 8

theorem reach_le_depth (a : Arena) : a.reach ≤ a.depth := by
  have h : 2 * (16 * (a.exprs.size + a.stmts.size + 2)) ≤ a.depth :=
    Nat.mul_le_mul_right _ (by omega)
  simp only [reach]
  omega

end Arena

/-- Every step leads to a visit of a stored node or down in rank. -/
def Graded (a : Arena) (next : Visit → List (Except Fault Visit)) : Prop :=
  ∀ v w, .ok w ∈ next v → a.holds w = true ∨ a.rank w < a.rank v

namespace Graded

variable {a : Arena} {next : Visit → List (Except Fault Visit)}

/-- The visits of stored nodes that lie in one another below a visit, down to the greatest depth:
they are different, and there are enough of them to account for the depth. -/
theorem exists_path (hg : Graded a next) (n : Nat) : ∀ v, HasDepth next n v →
    ∃ path : List Visit, path.Nodup ∧ (∀ w ∈ path, a.holds w = true ∧ ∃ k < n, HasDepth next k w) ∧
      n ≤ 8 * path.length + a.rank v := by
  induction n with
  | zero => exact fun v _ => ⟨[], List.nodup_nil, by simp, by simp⟩
  | succ n ih =>
    intro v hv
    obtain ⟨w, hw, hd⟩ := hv.below
    obtain ⟨path, hnodup, hpath, hlen⟩ := ih w hd
    have hpath' : ∀ u ∈ path, a.holds u = true ∧ ∃ k < n + 1, HasDepth next k u := by
      intro u hu
      obtain ⟨hh, k, hk, hdk⟩ := hpath u hu
      exact ⟨hh, k, by omega, hdk⟩
    by_cases hh : a.holds w = true
    -- Those on the path lie deeper in than `w`, so `w` is not among them.
    · have hnew : w ∉ path := by
        intro hmem
        obtain ⟨-, k, hk, hdk⟩ := hpath w hmem
        have := hd.unique hdk
        omega
      refine ⟨w :: path, List.nodup_cons.mpr ⟨hnew, hnodup⟩, ?_, ?_⟩
      · intro u hu
        rcases List.mem_cons.mp hu with rfl | hu
        · exact ⟨hh, n, by omega, hd⟩
        · exact hpath' u hu
      · have := a.rank_lt w
        simp only [List.length_cons]
        omega
    · have hlt := (hg v w hw).resolve_left hh
      exact ⟨path, hnodup, hpath', by omega⟩

theorem depth_lt_reach (hg : Graded a next) {n : Nat} {v : Visit} (h : HasDepth next n v) :
    n < a.reach := by
  obtain ⟨path, hnodup, hpath, hlen⟩ := hg.exists_path n v h
  have hsub : path ⊆ a.nodeVisits := fun w hw => Arena.mem_nodeVisits (hpath w hw).1
  have hle := (hnodup.subperm hsub).length_le
  have := a.rank_lt v
  rw [a.length_nodeVisits] at hle
  simp only [Arena.reach]
  omega

/-- A trail that ends at all ends within the depth that visits can have. -/
theorem trail_reach (hg : Graded a next) {n : Nat} {steps : List (Except Fault Visit)}
    {visits : List Visit} {stop : Option Fault} (h : Trail next n steps visits stop) :
    Trail next a.reach steps visits stop := by
  have within {n : Nat} {v : Visit} {below : List Visit} {stop : Option Fault}
      (hb : Trail next n (next v) below stop) : Trail next (a.reach - 1) (next v) below stop := by
    obtain ⟨m, hm⟩ := Ends.hasDepth ⟨below, stop, hb⟩
    have hlt := hg.depth_lt_reach hm
    obtain ⟨below', stop', ht⟩ := hm.1.mono (show m ≤ a.reach - 1 by omega)
    obtain ⟨rfl, rfl⟩ := hb.unique ht
    exact ht
  have hreach : a.reach = a.reach - 1 + 1 := by simp [Arena.reach]
  induction h with
  | done => exact .done
  | fault f rest => exact .fault f rest
  | visit hb _ _ ih =>
    rw [hreach] at ih ⊢
    exact .visit (within hb) ih
  | broken hb _ =>
    rw [hreach]
    exact .broken (within hb)

theorem trail_depth (hg : Graded a next) {n : Nat} {steps : List (Except Fault Visit)}
    {visits : List Visit} {stop : Option Fault} (h : Trail next n steps visits stop) :
    Trail next a.depth steps visits stop :=
  (hg.trail_reach h).mono a.reach_le_depth

end Graded

namespace Arena

theorem holds_or_rank_eq_zero (a : Arena) {v : Visit} (h : Numbered.ofVisit? v ≠ none) :
    a.holds v = true ∨ a.rank v = 0 := by
  by_cases hh : a.holds v = true
  · exact .inl hh
  · cases v with
    | stmt id => exact .inr (if_neg hh)
    | expr id => exact .inr (if_neg hh)
    | target id => exact .inr (if_neg hh)
    | _ => simp [Numbered.ofVisit?] at h

/-- A step leads to a visit by number or down in rank, and never from the least rank. -/
theorem rank_lt_of_mem_steps {a : Arena} {v w : Visit} (h : .ok w ∈ a.steps v) :
    0 < a.rank v ∧ (Numbered.ofVisit? w = none → a.rank w < a.rank v) := by
  have habove := above_of_mem_steps h
  cases w with
  | function f => exact absurd habove id
  | exprList r => exact absurd habove id
  | block r =>
    rcases habove with ⟨f, rfl, -⟩ | ⟨f, rfl⟩ <;> simp [rank]
  | stmt id =>
    obtain ⟨r, rfl, -⟩ := habove
    simp [rank, Numbered.ofVisit?]
  | expr id =>
    rcases habove with ⟨f, rfl⟩ | ⟨f, rfl⟩ | ⟨r, rfl⟩ | ⟨p, rfl⟩ <;>
      simp [rank, Numbered.ofVisit?]
  | target id =>
    obtain ⟨f, rfl⟩ := habove
    simp [rank, Numbered.ofVisit?]
  | stmtForm f =>
    obtain ⟨id, span, rfl, hs⟩ := habove
    simp [rank, holds, hs]
  | exprForm f =>
    rcases habove with ⟨id, span, rfl, hs⟩ | ⟨t, rfl, rfl⟩
    · simp [rank, holds, hs]
    · simp [rank]
  | targetForm t =>
    obtain ⟨id, span, rfl, hs⟩ := habove
    simp [rank, holds, hs]
  | merge r => rcases habove with rfl | rfl <;> simp [rank]
  | mergeIf r =>
    obtain ⟨f, rfl, -⟩ := habove
    simp [rank]
  | loopEntry r =>
    obtain ⟨f, rfl, -⟩ := habove
    simp [rank]
  | loopRepeat r =>
    obtain ⟨f, rfl, -⟩ := habove
    simp [rank]
  | phi p =>
    obtain ⟨r, phis, rfl, -, -⟩ := habove
    simp [rank]

theorem graded (a : Arena) : Graded a a.steps := by
  intro v w h
  obtain ⟨hpos, hlt⟩ := rank_lt_of_mem_steps h
  by_cases hn : Numbered.ofVisit? w = none
  · exact .inr (hlt hn)
  · exact (a.holds_or_rank_eq_zero hn).imp_right fun hz => by omega

end Arena

/-! ### Traversals that end -/

section

variable {σ α : Type} {p : Pass σ α} {a : Arena} {next : Visit → List (Except Fault Visit)}
  {note : σ → Visit → σ} {depth : Nat} {tasks : List Task} {s : σ}

namespace Pass.Follows

/-- A traversal that is not too deep makes the visits of a trail and ends as that does. -/
theorem traverse_trail (h : p.Follows next note) (hd : (p.traverse depth tasks s).1 ≠ .tooDeep) :
    ∃ visits, Trail next depth (tasks.flatMap Task.steps) visits
        (p.traverse depth tasks s).1.fault? ∧
      (p.traverse depth tasks s).2 = visits.foldl note s := by
  rw [traverse_eq] at hd ⊢
  exact h.perform_trail depth _ s hd

/-- Where there is a trail at all, a traversal within the bound of the arena makes its visits. -/
theorem trail_traverse_of_graded (h : p.Follows next note) (hg : Graded a next) {n : Nat}
    {visits : List Visit} {stop : Option Fault}
    (ht : Trail next n (tasks.flatMap Task.steps) visits stop) (hd : a.depth ≤ depth) (s : σ) :
    (p.traverse depth tasks s).1 ≠ .tooDeep ∧ (p.traverse depth tasks s).1.fault? = stop ∧
      (p.traverse depth tasks s).2 = visits.foldl note s := by
  rw [traverse_eq]
  exact h.trail_perform ((hg.trail_depth ht).mono hd) s

theorem trail_traverse (h : p.Follows a.steps note) {n : Nat} {visits : List Visit}
    {stop : Option Fault} (ht : Trail a.steps n (tasks.flatMap Task.steps) visits stop)
    (hd : a.depth ≤ depth) (s : σ) :
    (p.traverse depth tasks s).1 ≠ .tooDeep ∧ (p.traverse depth tasks s).1.fault? = stop ∧
      (p.traverse depth tasks s).2 = visits.foldl note s :=
  h.trail_traverse_of_graded a.graded ht hd s

/-- A traversal that ends within any bound is the same within every bound that suffices for the
arena. -/
theorem traverse_eq_of_ends (h : p.Follows next note) (hg : Graded a next) {depth' : Nat}
    (hend : (p.traverse depth tasks s).1 ≠ .tooDeep) (hd : a.depth ≤ depth') :
    p.traverse depth' tasks s = p.traverse depth tasks s := by
  obtain ⟨visits, ht, -⟩ := h.traverse_trail hend
  have hend' := (h.trail_traverse_of_graded hg ht hd s).1
  rcases Nat.le_total depth depth' with hle | hle
  · exact traverse_of_le p hle tasks s hend
  · exact (traverse_of_le p hle tasks s hend').symm

/-- A traversal gets through in the state `s'` just where a trail without a fault leads there. -/
theorem traverse_ok_iff (h : p.Follows next note) (hg : Graded a next) (tasks : List Task)
    (s s' : σ) :
    (∃ outs, p.traverse a.depth tasks s = (.ok outs, s')) ↔
      ∃ n visits, Trail next n (tasks.flatMap Task.steps) visits none ∧
        visits.foldl note s = s' := by
  constructor
  · rintro ⟨outs, hrun⟩
    obtain ⟨hend, hstop⟩ := Outcome.exists_ok_iff.mp ⟨outs, congrArg Prod.fst hrun⟩
    obtain ⟨visits, ht, hs⟩ := h.traverse_trail hend
    rw [hstop] at ht
    exact ⟨a.depth, visits, ht, by rw [← hs, hrun]⟩
  · rintro ⟨n, visits, ht, rfl⟩
    obtain ⟨hend, hstop, hs⟩ := h.trail_traverse_of_graded hg ht (Nat.le_refl _) s
    obtain ⟨outs, houts⟩ := Outcome.exists_ok_iff.mpr ⟨hend, hstop⟩
    exact ⟨outs, Prod.ext houts hs⟩

/-- The same for what an analysis makes of its state at the end. -/
theorem map_state_eq_ok_iff (h : p.Follows next note) (hg : Graded a next) (tasks : List Task)
    (s s' : σ) :
    (p.traverse a.depth tasks s).1.map (fun _ => (p.traverse a.depth tasks s).2) = .ok s' ↔
      ∃ n visits, Trail next n (tasks.flatMap Task.steps) visits none ∧
        visits.foldl note s = s' := by
  rw [← h.traverse_ok_iff hg]
  rcases p.traverse a.depth tasks s with ⟨_ | _ | _, t⟩ <;> simp [Outcome.map]

end Pass.Follows

/-- The default traversal ends, if only its visits may nest deep enough. -/
def Arena.Terminates (a : Arena) (tasks : List Task) : Prop :=
  ∃ depth, ((Pass.bare a).traverse depth tasks ()).1 ≠ .tooDeep

theorem Arena.Terminates.exists_trail (h : a.Terminates tasks) :
    ∃ n visits stop, Trail a.steps n (tasks.flatMap Task.steps) visits stop := by
  obtain ⟨n, hn⟩ := h
  obtain ⟨visits, ht, -⟩ := (Pass.follows_bare a).traverse_trail hn
  exact ⟨n, visits, _, ht⟩

theorem Pass.bare_ok_iff : (∃ outs, (a.traverse (bare a) tasks ()).1 = .ok outs) ↔
    ∃ n visits, Trail a.steps n (tasks.flatMap Task.steps) visits none := by
  have hrun := (follows_bare a).traverse_ok_iff a.graded tasks () ()
  simpa [Prod.ext_iff, Arena.traverse] using hrun

/-- A traversal that ends at all ends within the bound of the arena. -/
theorem Pass.Follows.terminates_iff (h : p.Follows a.steps note) (hd : a.depth ≤ depth) (s : σ) :
    (p.traverse depth tasks s).1 ≠ .tooDeep ↔ a.Terminates tasks := by
  constructor
  · intro hend
    obtain ⟨visits, ht, -⟩ := h.traverse_trail hend
    exact ⟨a.depth, ((Pass.follows_bare a).trail_traverse ht (Nat.le_refl _) ()).1⟩
  · intro hend
    obtain ⟨n, visits, stop, ht⟩ := hend.exists_trail
    exact (h.trail_traverse ht hd s).1

/-- An observer writes down the notes of the visits of a trail, in order. -/
theorem Pass.observe_trail {ε : Type} (note : Visit → Option ε) (tasks : List Task) {n : Nat}
    {visits : List Visit} (ht : Trail a.steps n (tasks.flatMap Task.steps) visits none) :
    ∃ outs log, a.traverse (.observe a note) tasks #[] = (.ok outs, log) ∧
      log.toList = visits.filterMap note := by
  obtain ⟨outs, hrun⟩ := ((follows_observe a note).traverse_ok_iff a.graded tasks #[] _).mpr
    ⟨n, visits, ht, rfl⟩
  exact ⟨outs, _, hrun, by simp [foldl_note]⟩

theorem Recorder.depth_le (r : Recorder) (a : Arena) : a.depth ≤ r.depth a := by
  simp only [Recorder.depth]
  omega

namespace Recorder

theorem trail_run {n : Nat} {visits : List Visit} {stop : Option Fault}
    (ht : Trail a.steps n (tasks.flatMap Task.steps) visits stop) :
    (full.run a tasks).1 ≠ .tooDeep ∧ (full.run a tasks).1.fault? = stop ∧
      (full.run a tasks).2 = visits.toArray := by
  obtain ⟨hend, hstop, hlog⟩ := (follows_full a).trail_traverse ht (full.depth_le a) #[]
  refine ⟨hend, hstop, hlog.trans ?_⟩
  rw [List.foldl_push_eq_append', Array.empty_append]

theorem run_trail (hd : (full.run a tasks).1 ≠ .tooDeep) :
    Trail a.steps (full.depth a) (tasks.flatMap Task.steps) (full.run a tasks).2.toList
      (full.run a tasks).1.fault? := by
  obtain ⟨visits, ht, -⟩ := (follows_full a).traverse_trail hd
  rw [(trail_run ht).2.2]
  exact ht

end Recorder

end

end MergeForm
