import Mathlib.Data.List.Forall2
import MergeForm.Passes.Observer
import MergeForm.Passes.Recorder
import MergeForm.Proofs.Runs

/-! The trail of a traversal: which visits it makes, in order, and where it stops.  Many passes
choose what is done below a visit without regard to their state; such a pass makes the visits of one
trail and changes its state once at each of them.  What holds of trails thereby holds of the full
recorder, of every observer and of the analyses alike. -/

namespace MergeForm

/-- With the steps `next v` below each visit `v`, and visits nested at most `depth` deep, the given
steps make the given visits and end in the given fault, if in any. -/
inductive Trail (next : Visit → List (Except Fault Visit)) :
    Nat → List (Except Fault Visit) → List Visit → Option Fault → Prop
  | done {depth : Nat} : Trail next depth [] [] none
  | fault {depth : Nat} (f : Fault) (rest : List (Except Fault Visit)) :
    Trail next depth (.error f :: rest) [] (some f)
  | visit {depth : Nat} {v : Visit} {rest : List (Except Fault Visit)} {below after : List Visit}
    {stop : Option Fault} : Trail next depth (next v) below none →
    Trail next (depth + 1) rest after stop →
    Trail next (depth + 1) (.ok v :: rest) (v :: (below ++ after)) stop
  | broken {depth : Nat} {v : Visit} {rest : List (Except Fault Visit)} {below : List Visit}
    {f : Fault} : Trail next depth (next v) below (some f) →
    Trail next (depth + 1) (.ok v :: rest) (v :: below) (some f)

namespace Trail

variable {next : Visit → List (Except Fault Visit)}

theorem mono {depth depth' : Nat} {steps : List (Except Fault Visit)} {visits : List Visit}
    {stop : Option Fault} (h : Trail next depth steps visits stop) (hle : depth ≤ depth') :
    Trail next depth' steps visits stop := by
  induction h generalizing depth' with
  | done => exact .done
  | fault f rest => exact .fault f rest
  | visit _ _ ihb iha =>
    obtain ⟨d, rfl⟩ : ∃ d, depth' = d + 1 := ⟨depth' - 1, by omega⟩
    exact .visit (ihb (by omega)) (iha hle)
  | broken _ ih =>
    obtain ⟨d, rfl⟩ : ∃ d, depth' = d + 1 := ⟨depth' - 1, by omega⟩
    exact .broken (ih (by omega))

theorem unique {depth depth' : Nat} {steps : List (Except Fault Visit)}
    {visits visits' : List Visit} {stop stop' : Option Fault}
    (h : Trail next depth steps visits stop) (h' : Trail next depth' steps visits' stop') :
    visits = visits' ∧ stop = stop' := by
  induction h generalizing depth' visits' stop' with
  | done =>
    cases h'
    exact ⟨rfl, rfl⟩
  | fault =>
    cases h'
    exact ⟨rfl, rfl⟩
  | visit _ _ ihb iha =>
    cases h' with
    | visit hb ha =>
      obtain ⟨rfl, -⟩ := ihb hb
      obtain ⟨rfl, rfl⟩ := iha ha
      exact ⟨rfl, rfl⟩
    | broken hb => exact absurd (ihb hb).2 (by simp)
  | broken _ ih =>
    cases h' with
    | visit hb _ => exact absurd (ih hb).2 (by simp)
    | broken hb =>
      obtain ⟨rfl, hf⟩ := ih hb
      exact ⟨rfl, hf⟩

/-! ### Trails without a fault -/

theorem append {n m : Nat}
    {steps steps' : List (Except Fault Visit)} {visits visits' : List Visit}
    (h : Trail next n steps visits none) (h' : Trail next m steps' visits' none) :
    Trail next (max n m) (steps ++ steps') (visits ++ visits') none := by
  induction steps generalizing visits with
  | nil =>
    cases h
    exact h'.mono (Nat.le_max_right _ _)
  | cons step rest ih =>
    cases h with
    | @visit k v _ below after _ hb ha =>
      obtain ⟨depth, hdepth⟩ : ∃ depth, max (k + 1) m = depth + 1 :=
        Nat.exists_eq_add_one.mpr (by omega)
      have hrest := ih ha
      rw [hdepth] at hrest ⊢
      rw [List.cons_append, List.cons_append, List.append_assoc]
      exact .visit (hb.mono (by omega)) hrest

theorem map_ok_inj {vs ws : List Visit}
    (h : vs.map (.ok : Visit → Except Fault Visit) = ws.map .ok) : vs = ws :=
  (List.map_inj_right fun _ _ hvw => Except.ok.inj hvw).mp h

theorem eq_map_ok {depth : Nat} {steps : List (Except Fault Visit)} {visits : List Visit}
    (h : Trail next depth steps visits none) : ∃ vs ⊆ visits, steps = vs.map .ok := by
  induction steps generalizing visits with
  | nil => exact ⟨[], by simp, rfl⟩
  | cons step rest ih =>
    cases h with
    | @visit _ v _ below after _ _ ha =>
      obtain ⟨vs, hsub, rfl⟩ := ih ha
      refine ⟨v :: vs, ?_, rfl⟩
      intro w hw
      rcases List.mem_cons.mp hw with rfl | hw
      · simp
      · simp [hsub hw]

theorem mem_of_mem_steps {depth : Nat} {steps : List (Except Fault Visit)} {visits : List Visit}
    (h : Trail next depth steps visits none) {v : Visit} (hv : .ok v ∈ steps) : v ∈ visits := by
  obtain ⟨vs, hvs, rfl⟩ := h.eq_map_ok
  exact hvs (by simpa using hv)

/-- Without a fault all that is below a visit on the trail is on the trail. -/
theorem below_of_mem {depth : Nat} {steps : List (Except Fault Visit)} {visits : List Visit}
    {stop : Option Fault} (h : Trail next depth steps visits stop) (hs : stop = none) :
    ∀ v ∈ visits, ∃ d below, Trail next d (next v) below none ∧ below ⊆ visits := by
  induction h with
  | done => simp
  | fault => simp at hs
  | broken => simp at hs
  | @visit d v rest below after stop hb _ ihb iha =>
    intro w hw
    rcases List.mem_cons.mp hw with rfl | hw
    · exact ⟨d, below, hb, fun u hu => by simp [hu]⟩
    rcases List.mem_append.mp hw with hw | hw
    · obtain ⟨d', below', hb', hsub⟩ := ihb rfl w hw
      exact ⟨d', below', hb', fun u hu => by simp [hsub hu]⟩
    · obtain ⟨d', below', hb', hsub⟩ := iha hs w hw
      exact ⟨d', below', hb', fun u hu => by simp [hsub hu]⟩

theorem error_notMem_next {depth : Nat} {steps : List (Except Fault Visit)} {visits : List Visit}
    (h : Trail next depth steps visits none) {v : Visit} (hv : v ∈ visits) (f : Fault) :
    .error f ∉ next v := by
  obtain ⟨_, below, hb, -⟩ := h.below_of_mem rfl v hv
  obtain ⟨vs, -, heq⟩ := hb.eq_map_ok
  simp [heq]

theorem mem_of_mem_next {depth : Nat} {steps : List (Except Fault Visit)} {visits : List Visit}
    (h : Trail next depth steps visits none) {v w : Visit} (hv : v ∈ visits)
    (hw : .ok w ∈ next v) : w ∈ visits := by
  obtain ⟨_, below, hb, hsub⟩ := h.below_of_mem rfl v hv
  exact hsub (hb.mem_of_mem_steps hw)

theorem exists_of_forall₂_singleton {α β : Type} {R : α → β → Prop} {x : α} {ys : List β}
    (h : List.Forall₂ R [x] ys) : ∃ y, R x y ∧ ys = [y] := by
  simpa [List.forall₂_cons_left_iff] using h

/-- What is noted along a trail without a fault is what its visits mean, one after the other, if at
each visit what is noted there and what the visits below it mean make up what it means. -/
theorem compose {ε : Type} {note : Visit → List ε} {Means : Visit → List ε → Prop}
    (step : ∀ v (below : List Visit) parts, next v = below.map .ok →
      List.Forall₂ Means below parts → Means v (note v ++ parts.flatten))
    {depth : Nat} {steps : List (Except Fault Visit)} {visits : List Visit} {stop : Option Fault}
    (h : Trail next depth steps visits stop) (hs : stop = none) :
    ∀ vs : List Visit, steps = vs.map .ok →
      ∃ parts, List.Forall₂ Means vs parts ∧ visits.flatMap note = parts.flatten := by
  induction h with
  | done =>
    intro vs hvs
    obtain rfl : vs = [] := by simpa using hvs.symm
    exact ⟨[], .nil, rfl⟩
  | fault => simp at hs
  | broken => simp at hs
  | @visit depth v rest below after stop hb _ ihb iha =>
    intro vs hvs
    cases vs with
    | nil => simp at hvs
    | cons w ws =>
      obtain ⟨rfl, rfl⟩ : v = w ∧ rest = ws.map .ok := by simpa using hvs
      obtain ⟨us, -, hus⟩ := hb.eq_map_ok
      obtain ⟨inner, hinner, hbelow⟩ := ihb rfl us hus
      obtain ⟨parts, hparts, hafter⟩ := iha hs ws rfl
      refine ⟨(note v ++ inner.flatten) :: parts, .cons (step v us inner hus hinner) hparts, ?_⟩
      simp [hbelow, hafter]

/-- All that is below `v` can be visited without a fault. -/
def Clears (next : Visit → List (Except Fault Visit)) (v : Visit) : Prop :=
  ∃ depth below, Trail next depth (next v) below none

theorem exists_of_clears (vs : List Visit) (h : ∀ v ∈ vs, Clears next v) :
    ∃ depth visits, Trail next depth (vs.map .ok) visits none := by
  induction vs with
  | nil => exact ⟨0, [], .done⟩
  | cons v vs ih =>
    obtain ⟨inner, below, hb⟩ := h v (by simp)
    obtain ⟨outer, after, ha⟩ := ih fun w hw => h w (List.mem_cons_of_mem v hw)
    refine ⟨max inner outer + 1, v :: (below ++ after), ?_⟩
    exact .visit (hb.mono (by omega)) (ha.mono (by omega))

theorem Clears.intro {v : Visit} (below : List Visit) (hv : next v = below.map .ok)
    (h : ∀ w ∈ below, Clears next w) : Clears next v := by
  obtain ⟨depth, visits, ht⟩ := exists_of_clears below h
  exact ⟨depth, visits, hv ▸ ht⟩

theorem Clears.single {v w : Visit} (hv : next v = [.ok w]) (h : Clears next w) :
    Clears next v :=
  .intro [w] hv (by simpa using h)

/-- What holds of a visit as soon as it holds of all visits right below it, where these are all that
is there, holds of the first visits of a trail without a fault. -/
theorem holds_of_below {P : Visit → Prop}
    (step : ∀ v (below : List Visit), next v = below.map .ok → (∀ w ∈ below, P w) → P v)
    {depth : Nat} {steps : List (Except Fault Visit)} {visits : List Visit} {stop : Option Fault}
    (h : Trail next depth steps visits stop) (hs : stop = none) : ∀ v, .ok v ∈ steps → P v := by
  induction h with
  | done => simp
  | fault => simp at hs
  | broken => simp at hs
  | @visit depth v rest below after stop hb _ ihb iha =>
    intro w hw
    rcases List.mem_cons.mp hw with heq | hw
    · obtain rfl : w = v := by simpa using heq
      obtain ⟨vs, -, hvs⟩ := hb.eq_map_ok
      exact step w vs hvs fun u hu => ihb rfl u (by simp [hvs, hu])
    · exact iha hs w hw

/-! ### Where visits and faults come from -/

/-- A visit on the trail is one of the first steps or a step below another visit on the trail. -/
theorem origin {depth : Nat} {steps : List (Except Fault Visit)} {visits : List Visit}
    {stop : Option Fault} (h : Trail next depth steps visits stop) {w : Visit} (hw : w ∈ visits) :
    .ok w ∈ steps ∨ ∃ v ∈ visits, .ok w ∈ next v := by
  induction h with
  | done => simp at hw
  | fault => simp at hw
  | visit _ _ ihb iha =>
    rcases List.mem_cons.mp hw with rfl | hw
    · exact .inl (by simp)
    rcases List.mem_append.mp hw with hw | hw
    · rcases ihb hw with hw | ⟨u, hu, hw⟩
      · exact .inr ⟨_, by simp, hw⟩
      · exact .inr ⟨u, by simp [hu], hw⟩
    · rcases iha hw with hw | ⟨u, hu, hw⟩
      · exact .inl (by simp [hw])
      · exact .inr ⟨u, by simp [hu], hw⟩
  | broken _ ih =>
    rcases List.mem_cons.mp hw with rfl | hw
    · exact .inl (by simp)
    rcases ih hw with hw | ⟨u, hu, hw⟩
    · exact .inr ⟨_, by simp, hw⟩
    · exact .inr ⟨u, by simp [hu], hw⟩

/-- Where every step keeps a property, a fault is one of the first steps or below a visit with that
property. -/
theorem fault_origin {P : Visit → Prop} (keeps : ∀ v w, P v → .ok w ∈ next v → P w) {depth : Nat}
    {steps : List (Except Fault Visit)} {visits : List Visit} {stop : Option Fault}
    (h : Trail next depth steps visits stop) (hsteps : ∀ v, .ok v ∈ steps → P v) {f : Fault}
    (hf : stop = some f) : .error f ∈ steps ∨ ∃ v, P v ∧ .error f ∈ next v := by
  induction h with
  | done => simp at hf
  | fault g rest =>
    obtain rfl : g = f := by simpa using hf
    exact .inl (List.mem_cons_self ..)
  | visit _ _ _ iha =>
    rcases iha (fun w hw => hsteps w (List.mem_cons_of_mem _ hw)) hf with hmem | hbelow
    · exact .inl (List.mem_cons_of_mem _ hmem)
    · exact .inr hbelow
  | @broken _ v _ _ _ _ ih =>
    have hv : P v := hsteps v (List.mem_cons_self ..)
    rcases ih (fun w hw => keeps v w hv hw) hf with hmem | hbelow
    · exact .inr ⟨v, hv, hmem⟩
    · exact .inr hbelow

/-- The fault `f` comes right after the visits `visits`, among `steps`: all steps before it have
been carried out, and they are all that has been done. -/
def FaultIn (next : Visit → List (Except Fault Visit)) (steps : List (Except Fault Visit))
    (visits : List Visit) (f : Fault) : Prop :=
  ∃ (depth : Nat) (before : List Visit) (rest : List (Except Fault Visit)),
    steps = before.map .ok ++ .error f :: rest ∧
    Trail next depth (before.map .ok) visits none

theorem FaultIn.error_mem {steps : List (Except Fault Visit)} {visits : List Visit} {f : Fault}
    (h : FaultIn next steps visits f) : .error f ∈ steps := by
  obtain ⟨_, before, rest, rfl, -⟩ := h
  simp

/-- Where the steps are visits with a fault at the end, all of the visits come before that fault. -/
theorem FaultIn.last {vs : List Visit} {g : Fault} {visits : List Visit} {f : Fault}
    (h : FaultIn next (vs.map .ok ++ [.error g]) visits f) :
    f = g ∧ ∃ depth, Trail next depth (vs.map .ok) visits none := by
  obtain ⟨depth, before, rest, heq, ht⟩ := h
  suffices hsame : before = vs ∧ f = g by
    obtain ⟨rfl, rfl⟩ := hsame
    exact ⟨rfl, depth, ht⟩
  clear ht
  induction vs generalizing before with
  | nil => cases before <;> simp_all
  | cons v vs ih =>
    cases before with
    | nil => simp at heq
    | cons w ws =>
      obtain ⟨hhead, htail⟩ := List.cons.inj heq
      obtain rfl : v = w := by simpa using hhead
      obtain ⟨rfl, rfl⟩ := ih ws htail
      exact ⟨rfl, rfl⟩

theorem FaultIn.only {g : Fault} {visits : List Visit} {f : Fault}
    (h : FaultIn next [.error g] visits f) : f = g ∧ visits = [] := by
  have hlast : FaultIn next (List.map .ok [] ++ [.error g]) visits f := h
  obtain ⟨rfl, depth, ht⟩ := hlast.last
  cases ht
  exact ⟨rfl, rfl⟩

/-- A fault is one of the first steps, or a step below a visit of the trail after which nothing but
what comes before the fault below that visit has been done. -/
theorem faultIn {depth : Nat} {steps : List (Except Fault Visit)} {visits : List Visit}
    {stop : Option Fault} (h : Trail next depth steps visits stop) {f : Fault}
    (hs : stop = some f) :
    FaultIn next steps visits f ∨
      ∃ before v below, visits = before ++ v :: below ∧ FaultIn next (next v) below f := by
  induction h with
  | done => simp at hs
  | fault g rest =>
    obtain rfl : g = f := by simpa using hs
    exact .inl ⟨0, [], rest, rfl, .done⟩
  | @visit d v rest below after stop hb _ _ iha =>
    rcases iha hs with ⟨d', before, rest', rfl, ht⟩ | ⟨before, w, below', rfl, hf⟩
    · refine .inl ⟨max d d' + 1, v :: before, rest', rfl, ?_⟩
      exact .visit (hb.mono (by omega)) (ht.mono (by omega))
    · exact .inr ⟨v :: (below ++ before), w, below', by simp, hf⟩
  | @broken d v rest below g hb ih =>
    rcases ih hs with hf | ⟨before, w, below', rfl, hf⟩
    · exact .inr ⟨[], v, below, rfl, hf⟩
    · exact .inr ⟨v :: before, w, below', rfl, hf⟩

end Trail

/-! ### Passes along a trail -/

/-- At the visit `v` the pass does the steps `next v` and goes from a state `s` to `note s v`,
whatever `s` is. -/
structure Pass.Follows {σ α : Type} (p : Pass σ α) (next : Visit → List (Except Fault Visit))
    (note : σ → Visit → σ) : Prop where
  steps : ∀ v s, (p.hook v s).1.steps = next v
  state : ∀ v s, (p.hook v s).2 = note s v

namespace Pass.Follows

variable {σ α : Type} {p : Pass σ α} {next : Visit → List (Except Fault Visit)}
  {note : σ → Visit → σ}

/-- A run of the pass makes the visits of a trail and ends as that does. -/
theorem trail_of_runs (h : p.Follows next note) {depth : Nat} {steps : List (Except Fault Visit)}
    {s s' : σ} {stop : Option Fault} (hr : p.Runs depth steps s stop s') :
    ∃ visits, Trail next depth steps visits stop ∧ s' = visits.foldl note s := by
  induction hr with
  | done => exact ⟨[], .done, rfl⟩
  | fault f rest => exact ⟨[], .fault f rest, rfl⟩
  | visit _ _ ihb iha =>
    obtain ⟨below, hb, rfl⟩ := ihb
    obtain ⟨after, ha, rfl⟩ := iha
    rw [h.steps] at hb
    exact ⟨_, .visit hb ha, by simp [h.state]⟩
  | broken _ ih =>
    obtain ⟨below, hb, rfl⟩ := ih
    rw [h.steps] at hb
    exact ⟨_, .broken hb, by simp [h.state]⟩

theorem runs_of_trail (h : p.Follows next note) {depth : Nat} {steps : List (Except Fault Visit)}
    {visits : List Visit} {stop : Option Fault} (ht : Trail next depth steps visits stop) :
    ∀ s, p.Runs depth steps s stop (visits.foldl note s) := by
  induction ht with
  | done => exact fun s => .done
  | fault f rest => exact fun s => .fault f rest
  | @visit depth v rest below after stop _ _ ihb iha =>
    intro s
    have hbelow := ihb (note s v)
    rw [← h.steps v s, ← h.state v s] at hbelow
    rw [List.foldl_cons, List.foldl_append, ← h.state v s]
    exact .visit hbelow (iha _)
  | @broken depth v rest below f _ ih =>
    intro s
    have hbelow := ih (note s v)
    rw [← h.steps v s, ← h.state v s] at hbelow
    rw [List.foldl_cons, ← h.state v s]
    exact .broken hbelow

/-- What a pass does that ends within a bound: it makes the visits of a trail and ends as that
does. -/
theorem perform_trail (h : p.Follows next note) (depth : Nat) (steps : List (Except Fault Visit))
    (s : σ) (hd : (perform (p.visit depth) steps s).1 ≠ .tooDeep) :
    ∃ visits, Trail next depth steps visits (perform (p.visit depth) steps s).1.fault? ∧
      (perform (p.visit depth) steps s).2 = visits.foldl note s :=
  h.trail_of_runs (runs_perform depth steps s hd)

/-- A pass makes the visits of every trail within the bound, and ends as that does. -/
theorem trail_perform (h : p.Follows next note) {depth : Nat} {steps : List (Except Fault Visit)}
    {visits : List Visit} {stop : Option Fault} (ht : Trail next depth steps visits stop) (s : σ) :
    (perform (p.visit depth) steps s).1 ≠ .tooDeep ∧
      (perform (p.visit depth) steps s).1.fault? = stop ∧
        (perform (p.visit depth) steps s).2 = visits.foldl note s :=
  (h.runs_of_trail ht s).perform_eq

end Pass.Follows

/-! ### The default traversal -/

/-- The single steps of the default traversal below a visit. -/
def Arena.steps (a : Arena) (v : Visit) : List (Except Fault Visit) :=
  (a.plan v).flatMap Task.steps

theorem Pass.follows_observe {ε : Type} (a : Arena) (note : Visit → Option ε) :
    (Pass.observe a note).Follows a.steps fun log v => (note v).elim log log.push where
  steps _ _ := rfl
  state v log := by
    simp only [Pass.observe]
    cases note v <;> rfl

/-- An observer that makes the given visits writes down their notes, in order. -/
theorem foldl_note {ε : Type} (note : Visit → Option ε) (visits : List Visit) (log : Array ε) :
    visits.foldl (fun log v => (note v).elim log log.push) log =
      log ++ (visits.filterMap note).toArray := by
  induction visits generalizing log with
  | nil => simp
  | cons v visits ih =>
    rw [List.foldl_cons, ih, List.filterMap_cons]
    cases note v with
    | none => rfl
    | some e => simp

theorem Pass.follows_bare (a : Arena) : (Pass.bare a).Follows a.steps fun s _ => s where
  steps _ _ := rfl
  state _ _ := rfl

theorem Recorder.follows_full (a : Arena) : (full.pass a).Follows a.steps Array.push where
  steps v log := by simp [pass, full, Move.steps, Arena.move, Arena.steps]
  state v log := by simp [pass, full]

end MergeForm
