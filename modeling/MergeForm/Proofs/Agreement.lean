import MergeForm.Proofs.Trail

/-! Trails that agree up to a point.  Two ways to go on below a visit may differ at a few visits
only; then their trails are the same up to the first such visit that they come to.  Where one of the
two stops with a fault and the other goes on, what has been visited before is visited in both. -/

namespace MergeForm

/-- The steps `steps'` are `steps` up to the first fault in them that is `lost`; in the place of
that fault, and of what stands behind it, there may be anything. -/
inductive Continues (lost : Fault → Prop) :
    List (Except Fault Visit) → List (Except Fault Visit) → Prop
  | nil : Continues lost [] []
  | cons (step : Except Fault Visit) {rest rest' : List (Except Fault Visit)} :
    Continues lost rest rest' → Continues lost (step :: rest) (step :: rest')
  | past {f : Fault} (rest steps' : List (Except Fault Visit)) :
    lost f → Continues lost (.error f :: rest) steps'

namespace Continues

variable {lost : Fault → Prop}

theorem append_left {rest rest' : List (Except Fault Visit)} (h : Continues lost rest rest') :
    ∀ steps, Continues lost (steps ++ rest) (steps ++ rest')
  | [] => h
  | step :: steps => .cons step (h.append_left steps)

theorem refl (steps : List (Except Fault Visit)) : Continues lost steps steps := by
  simpa using nil.append_left steps

end Continues

namespace Trail

variable {next next' : Visit → List (Except Fault Visit)} {n m : Nat}
  {steps steps' : List (Except Fault Visit)} {visits visits' : List Visit}
  {stop stop' : Option Fault}

theorem single_iff {v : Visit} : Trail next n [.ok v] visits stop ↔
    ∃ k below, n = k + 1 ∧ visits = v :: below ∧ Trail next k (next v) below stop := by
  constructor
  · intro h
    cases h with
    | visit hb ha =>
      cases ha
      exact ⟨_, _, rfl, by simp, hb⟩
    | broken hb => exact ⟨_, _, rfl, rfl, hb⟩
  · rintro ⟨k, below, rfl, rfl, hb⟩
    cases stop with
    | none => simpa using Trail.visit hb .done
    | some f => exact .broken hb

/-- Steps without a visit are the same everywhere. -/
theorem of_no_visit (h : Trail next n steps visits stop) (hno : ∀ w, .ok w ∉ steps) :
    visits = [] ∧ Trail next' m steps [] stop := by
  cases h with
  | done => exact ⟨rfl, .done⟩
  | fault f rest => exact ⟨rfl, .fault f rest⟩
  | visit => exact absurd (List.mem_cons_self ..) (hno _)
  | broken => exact absurd (List.mem_cons_self ..) (hno _)

/-- What every step keeps, all visits have that the first steps lead to. -/
theorem all_of_keeps {P : Visit → Prop} (keeps : ∀ v w, P v → .ok w ∈ next v → P w)
    (h : Trail next n steps visits stop) (hsteps : ∀ v, .ok v ∈ steps → P v) :
    ∀ v ∈ visits, P v := by
  induction h with
  | done => simp
  | fault => simp
  | @visit _ v _ _ _ _ _ _ ihb iha =>
    have hv : P v := hsteps v (List.mem_cons_self ..)
    intro w hw
    rcases List.mem_cons.mp hw with rfl | hw
    · exact hv
    rcases List.mem_append.mp hw with hw | hw
    · exact ihb (fun u hu => keeps v u hv hu) w hw
    · exact iha (fun u hu => hsteps u (List.mem_cons_of_mem _ hu)) w hw
  | @broken _ v _ _ _ _ ih =>
    have hv : P v := hsteps v (List.mem_cons_self ..)
    intro w hw
    rcases List.mem_cons.mp hw with rfl | hw
    · exact hv
    · exact ih (fun u hu => keeps v u hv hu) w hw

/-- Nothing matters for a trail but what is below the visits on it. -/
theorem congr (h : Trail next n steps visits stop) (hnext : ∀ v ∈ visits, next' v = next v) :
    Trail next' n steps visits stop := by
  induction h with
  | done => exact .done
  | fault f rest => exact .fault f rest
  | visit _ _ ihb iha =>
    rw [← hnext _ (List.mem_cons_self ..)] at ihb
    exact .visit (ihb fun w hw => hnext w (by simp [hw])) (iha fun w hw => hnext w (by simp [hw]))
  | broken _ ih =>
    rw [← hnext _ (List.mem_cons_self ..)] at ih
    exact .broken (ih fun w hw => hnext w (by simp [hw]))

/-- A visit below which there is a fault at once stops the trail with it. -/
theorem stop_eq_of_mem (h : Trail next n steps visits stop) {v : Visit} (hv : v ∈ visits)
    {f : Fault} {rest : List (Except Fault Visit)} (hf : next v = .error f :: rest) :
    stop = some f := by
  induction h with
  | done => simp at hv
  | fault => simp at hv
  | visit hb _ ihb iha =>
    rcases List.mem_cons.mp hv with rfl | hv
    · rw [hf] at hb
      cases hb
    · rcases List.mem_append.mp hv with hv | hv
      · exact absurd (ihb hv) (by simp)
      · exact iha hv
  | broken hb ih =>
    rcases List.mem_cons.mp hv with rfl | hv
    · rw [hf] at hb
      cases hb
      rfl
    · exact ih hv

/-- Where the one goes on in place of a fault of the other, it visits all that the other does. -/
theorem prefix_of_continues {lost : Fault → Prop} (hnext : ∀ v, Continues lost (next v) (next' v))
    (h : Trail next n steps visits stop) (h' : Trail next' m steps' visits' stop')
    (hc : Continues lost steps steps') :
    visits <+: visits' ∧ ((∀ f, stop = some f → ¬lost f) → visits' = visits ∧ stop' = stop) := by
  induction h generalizing m steps' visits' stop' with
  | done =>
    cases hc
    cases h'
    exact ⟨List.prefix_refl _, fun _ => ⟨rfl, rfl⟩⟩
  | fault f rest =>
    cases hc with
    | cons _ hrest =>
      cases h'
      exact ⟨List.prefix_refl _, fun _ => ⟨rfl, rfl⟩⟩
    | past _ _ hf => exact ⟨List.nil_prefix, fun hkept => absurd hf (hkept f rfl)⟩
  | @visit _ v _ below _ _ _ _ ihb iha =>
    cases hc with
    | cons _ hrest =>
      cases h' with
      | visit hb' ha' =>
        obtain ⟨rfl, -⟩ := (ihb hb' (hnext v)).2 (by simp)
        obtain ⟨⟨more, rfl⟩, hsame⟩ := iha ha' hrest
        exact ⟨⟨more, by simp⟩, fun hkept => by simpa using hsame hkept⟩
      | broken hb' => exact absurd ((ihb hb' (hnext v)).2 (by simp)).2 (by simp)
  | @broken _ v _ below f _ ih =>
    cases hc with
    | cons _ hrest =>
      cases h' with
      | @visit _ _ _ _ after _ hb' _ =>
        obtain ⟨⟨more, rfl⟩, hsame⟩ := ih hb' (hnext v)
        exact ⟨⟨more ++ after, by simp⟩, fun hkept => absurd (hsame hkept).2 (by simp)⟩
      | broken hb' =>
        obtain ⟨⟨more, rfl⟩, hsame⟩ := ih hb' (hnext v)
        exact ⟨⟨more, by simp⟩, fun hkept => by simpa using hsame hkept⟩

/-- Where at some visits there is nothing but a fault instead of what was below them, a trail stops
at the first of those that it comes to. -/
theorem cut {fault? : Visit → Option Fault} (hkept : ∀ v, fault? v = none → next' v = next v)
    (hcut : ∀ v f, fault? v = some f → next' v = [.error f])
    (h : Trail next n steps visits stop) {f : Fault} (hf : visits.findSome? fault? = some f) :
    ∃ visits', visits' <+: visits ∧ Trail next' n steps visits' (some f) := by
  have here {v : Visit} {rest : List (Except Fault Visit)} {depth : Nat} (hv : fault? v = some f) :
      Trail next' (depth + 1) (.ok v :: rest) [v] (some f) := by
    refine .broken ?_
    rw [hcut v f hv]
    exact .fault f []
  induction h with
  | done => simp at hf
  | fault => simp at hf
  | @visit _ v _ below after _ hb _ ihb iha =>
    rw [List.findSome?_cons] at hf
    cases hv : fault? v with
    | some g =>
      obtain rfl : g = f := by simpa [hv] using hf
      exact ⟨[v], by simp, here hv⟩
    | none =>
      simp only [hv, List.findSome?_append] at hf
      rw [← hkept v hv] at ihb
      cases hbelow : below.findSome? fault? with
      | some g =>
        obtain rfl : g = f := by simpa [hbelow] using hf
        obtain ⟨below', ⟨more, rfl⟩, hb'⟩ := ihb hbelow
        exact ⟨v :: below', ⟨more ++ after, by simp⟩, .broken hb'⟩
      | none =>
        have hb' := hb.congr fun w hw => hkept w (List.findSome?_eq_none_iff.mp hbelow w hw)
        rw [← hkept v hv] at hb'
        obtain ⟨after', ⟨more, rfl⟩, ha'⟩ := iha (by simpa [hbelow] using hf)
        exact ⟨v :: (below ++ after'), ⟨more, by simp⟩, .visit hb' ha'⟩
  | @broken _ v _ below _ _ ih =>
    rw [List.findSome?_cons] at hf
    cases hv : fault? v with
    | some g =>
      obtain rfl : g = f := by simpa [hv] using hf
      exact ⟨[v], by simp, here hv⟩
    | none =>
      simp only [hv] at hf
      rw [← hkept v hv] at ih
      obtain ⟨below', ⟨more, rfl⟩, hb'⟩ := ih hf
      exact ⟨v :: below', ⟨more, by simp⟩, .broken hb'⟩

end Trail

end MergeForm
