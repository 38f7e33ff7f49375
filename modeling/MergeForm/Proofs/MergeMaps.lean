import Mathlib.Data.Finset.Card
import MergeForm.Analysis.MergeCheck
import MergeForm.Proofs.Depth

/-! Repeated names in merge maps.  The check comes to the merge map of a statement when the statement
is done, and reports each entry of the map whose name an earlier entry has, with the first entry of
that name. -/

namespace MergeForm

/-! ### Repeated names of one map -/

namespace MergeCheck

/-- The entry `p` in place `second` of the map `r`, with the first entry of its name, if that is an
earlier one. -/
def duplicate? (r : PhiRange) (phis : List Phi) (p : Phi) (second : Nat) : Option Duplicate :=
  let first := (phis.map Phi.name).idxOf p.name
  if first < second then some ⟨p.name, first, second, r⟩ else none

/-- The entries of the map `r` whose name an earlier entry has, in order. -/
def duplicates (r : PhiRange) (phis : List Phi) : List Duplicate :=
  phis.zipIdx.filterMap fun (p, second) => duplicate? r phis p second

theorem duplicate?_append {p : Phi} {phis : List Phi} (h : p ∈ phis) (r : PhiRange)
    (more : List Phi) (second : Nat) :
    duplicate? r (phis ++ more) p second = duplicate? r phis p second := by
  have hmem : p.name ∈ phis.map Phi.name := List.mem_map_of_mem h
  simp only [duplicate?, List.map_append, List.idxOf_append, if_pos hmem]

theorem duplicate?_concat (r : PhiRange) (phis : List Phi) (p : Phi) :
    duplicate? r (phis ++ [p]) p phis.length =
      if p.name ∈ phis.map Phi.name then
        some ⟨p.name, (phis.map Phi.name).idxOf p.name, phis.length, r⟩
      else none := by
  simp only [duplicate?, List.map_append, List.idxOf_append]
  by_cases hmem : p.name ∈ phis.map Phi.name
  · have hlt := List.idxOf_lt_length_of_mem hmem
    rw [List.length_map] at hlt
    simp only [if_pos hmem, if_pos hlt]
  · simp only [if_neg hmem]
    simp

/-- One more entry adds itself, if its name is there already, and changes nothing else. -/
theorem duplicates_concat (r : PhiRange) (phis : List Phi) (p : Phi) :
    duplicates r (phis ++ [p]) = duplicates r phis ++
      if p.name ∈ phis.map Phi.name then
        [⟨p.name, (phis.map Phi.name).idxOf p.name, phis.length, r⟩]
      else [] := by
  have hold : phis.zipIdx.filterMap (fun (q, i) => duplicate? r (phis ++ [p]) q i) =
      duplicates r phis := by
    apply List.filterMap_congr
    rintro ⟨q, i⟩ hq
    exact duplicate?_append (List.fst_mem_of_mem_zipIdx hq) r [p] i
  rw [duplicates, List.zipIdx_append, List.filterMap_append, hold]
  simp only [Nat.zero_add, List.zipIdx_singleton, List.filterMap_cons, List.filterMap_nil,
    duplicate?_concat]
  by_cases hmem : p.name ∈ phis.map Phi.name
  · simp only [if_pos hmem]
  · simp only [if_neg hmem]

/-- Of the entries of a map all but one for each name are reported. -/
theorem length_duplicates (r : PhiRange) (phis : List Phi) :
    (duplicates r phis).length + (phis.map Phi.name).toFinset.card = phis.length := by
  induction phis using List.reverseRecOn with
  | nil => rfl
  | append_singleton phis p ih =>
    have hinsert : ((phis ++ [p]).map Phi.name).toFinset =
        insert p.name (phis.map Phi.name).toFinset := by
      ext n
      simp [eq_comm]
    rw [duplicates_concat, hinsert]
    by_cases hmem : p.name ∈ phis.map Phi.name
    · rw [if_pos hmem, Finset.insert_eq_of_mem (List.mem_toFinset.mpr hmem)]
      simp only [List.length_append, List.length_singleton]
      omega
    · rw [if_neg hmem, Finset.card_insert_of_notMem (mt List.mem_toFinset.mp hmem)]
      simp only [List.length_append, List.length_singleton, List.length_nil]
      omega

example : duplicates ⟨4, 4⟩
    [⟨⟨0⟩, ⟨0⟩, ⟨1⟩⟩, ⟨⟨1⟩, ⟨0⟩, ⟨1⟩⟩, ⟨⟨0⟩, ⟨2⟩, ⟨1⟩⟩, ⟨⟨0⟩, ⟨0⟩, ⟨0⟩⟩] =
      [⟨⟨0⟩, 0, 2, ⟨4, 4⟩⟩, ⟨⟨0⟩, 0, 3, ⟨4, 4⟩⟩] := by decide

theorem duplicates_eq_nil_iff (r : PhiRange) (phis : List Phi) :
    duplicates r phis = [] ↔ (phis.map Phi.name).Nodup := by
  have hlen := length_duplicates r phis
  have hcard := Multiset.toFinset_card_eq_card_iff_nodup (m := (phis.map Phi.name : Multiset Name))
  simp only [List.toFinset_coe, Multiset.coe_card, List.length_map, Multiset.coe_nodup] at hcard
  rw [← hcard, ← List.length_eq_zero_iff]
  omega

/-! ### What the scan of a map finds -/

/-- The place of the first entry with the name `n`. -/
def first? (phis : List Phi) (n : Name) : Option Nat :=
  if n ∈ phis.map Phi.name then some ((phis.map Phi.name).idxOf n) else none

theorem first?_concat (phis : List Phi) (p : Phi) (n : Name) :
    first? (phis ++ [p]) n =
      if n ∉ phis.map Phi.name ∧ p.name = n then some phis.length else first? phis n := by
  simp only [first?, List.map_append, List.idxOf_append, List.mem_append]
  by_cases hmem : n ∈ phis.map Phi.name
  · simp only [hmem, true_or, if_true, not_true, false_and, if_false]
  · by_cases hn : p.name = n
    · simp [hmem, hn]
    · simp [hmem, hn, Ne.symm hn]

/-- What a scan of the map `r` knows when it has read the entries `read` and found the duplicates
`found` in other maps before. -/
structure Scan.Knows (r : PhiRange) (found : Array Duplicate) (read : List Phi) (s : Scan) :
    Prop where
  position : s.position = read.length
  firsts : ∀ n, s.firsts[n]? = first? read n
  found : s.found.toList = found.toList ++ duplicates r read

namespace Scan.Knows

variable {r : PhiRange} {found : Array Duplicate} {read : List Phi} {s : Scan}

theorem entry (h : Scan.Knows r found read s) (p : Phi) :
    Scan.Knows r found (read ++ [p]) (s.entry r p) := by
  have hp : s.firsts[p.name]? = first? read p.name := h.firsts p.name
  by_cases hmem : p.name ∈ read.map Phi.name
  · have hentry : s.entry r p =
        { s with
          position := s.position + 1
          found := s.found.push ⟨p.name, (read.map Phi.name).idxOf p.name, s.position, r⟩ } := by
      simp only [Scan.entry, hp, first?, if_pos hmem]
    refine ⟨by simp [hentry, h.position], fun n => ?_, ?_⟩
    · have hold : ¬(n ∉ read.map Phi.name ∧ p.name = n) := fun ⟨hn, hpn⟩ => hn (hpn ▸ hmem)
      rw [first?_concat, if_neg hold, hentry, h.firsts]
    · rw [hentry, duplicates_concat, if_pos hmem, ← List.append_assoc, ← h.found, h.position]
      exact Array.toList_push
  · have hentry : s.entry r p =
        { s with
          position := s.position + 1
          firsts := s.firsts.insert p.name s.position } := by
      simp only [Scan.entry, hp, first?, if_neg hmem]
    refine ⟨by simp [hentry, h.position], fun n => ?_, ?_⟩
    · rw [first?_concat, hentry, Std.HashMap.getElem?_insert, h.firsts, h.position]
      by_cases hn : p.name = n
      · subst hn
        simp [hmem]
      · simp [hn]
    · rw [hentry, h.found, duplicates_concat, if_neg hmem, List.append_nil]

theorem entries (h : Scan.Knows r found read s) (phis : List Phi) :
    Scan.Knows r found (read ++ phis) (phis.foldl (Scan.entry r) s) := by
  induction phis generalizing read s with
  | nil => simpa using h
  | cons p phis ih => simpa using ih (h.entry p)

end Scan.Knows

theorem toList_check (r : PhiRange) (phis : List Phi) (found : Array Duplicate) :
    (check r phis found).toList = found.toList ++ duplicates r phis := by
  have hstart : Scan.Knows r found [] ⟨0, Std.HashMap.emptyWithCapacity, found⟩ :=
    ⟨rfl, fun n => by simp [first?], by simp [duplicates]⟩
  exact (hstart.entries phis).found

theorem check_eq (r : PhiRange) (phis : List Phi) (found : Array Duplicate) :
    check r phis found = found ++ (duplicates r phis).toArray := by
  rw [← Array.toList_inj, toList_check, Array.toList_append, List.toList_toArray]

end MergeCheck

/-! ### Which maps are met, and in which order -/

/-- The statements `ids`, with all those in their blocks, have the merge maps `maps`, in the order
in which the statements are done: a statement is done after those in its blocks. -/
inductive Completed (a : Arena) : List StmtId → List PhiRange → Prop
  | nil : Completed a [] []
  | stmt {id : StmtId} {f : Stmt.Form} {span : Span} {rest : List StmtId}
    {inner after : List PhiRange} : a.stmt? id = some ⟨.form f, span⟩ →
    Completed a (f.blocks.flatMap Slots.ids) inner → Completed a rest after →
    Completed a (id :: rest) (inner ++ f.merge?.toList ++ after)

namespace Completed

variable {a : Arena}

theorem append {ids ids' : List StmtId} {maps maps' : List PhiRange} (h : Completed a ids maps)
    (h' : Completed a ids' maps') : Completed a (ids ++ ids') (maps ++ maps') := by
  induction h with
  | nil => exact h'
  | stmt hs hinner _ _ ih => simpa using Completed.stmt hs hinner ih

theorem unique {ids : List StmtId} {maps maps' : List PhiRange} (h : Completed a ids maps)
    (h' : Completed a ids maps') : maps = maps' := by
  induction h generalizing maps' with
  | nil =>
    cases h'
    rfl
  | stmt hs _ _ ihi iha =>
    cases h' with
    | stmt hs' hi ha =>
      obtain ⟨rfl, rfl⟩ : _ = _ ∧ _ = _ := by simpa [hs] using hs'
      rw [ihi hi, iha ha]

end Completed

/-- The maps that a visit comes to, with all that is visited below it. -/
def Visit.Maps (a : Arena) : Visit → List PhiRange → Prop
  | .function f, maps => Completed a f.body.ids maps
  | .block r, maps => Completed a r.ids maps
  | .stmt id, maps => Completed a [id] maps
  | .stmtForm f, maps =>
    ∃ inner, Completed a (f.blocks.flatMap Slots.ids) inner ∧ maps = inner ++ f.merge?.toList
  | .mergeIf r, maps | .loopRepeat r, maps | .merge r, maps => maps = [r]
  | _, maps => maps = []

/-- The map that a visit itself comes to. -/
def Visit.map? : Visit → Option PhiRange
  | .merge r => some r
  | _ => none

/-- Whether a visit is one of an expression, a target or an entry of a map. -/
def Visit.ofOperands : Visit → Bool
  | .expr _ | .exprForm _ | .exprList _ | .target _ | .targetForm _ | .loopEntry _ | .phi _ => true
  | _ => false

namespace Visit

variable {a : Arena}

theorem ofOperands_of_mem_steps {v w : Visit} (hv : v.ofOperands = true ∨ ∃ r, v = .merge r)
    (hw : .ok w ∈ a.steps v) : w.ofOperands = true := by
  have habove := Arena.above_of_mem_steps hw
  rcases hv with hv | ⟨r, rfl⟩
  · cases v <;> simp [ofOperands] at hv <;> cases w <;> simp_all [Above, ofOperands]
  · cases w <;> simp_all [Above, ofOperands]

theorem flatten_maps_operands {below : List Visit} {parts : List (List PhiRange)}
    (h : List.Forall₂ (Maps a) below parts) (hbelow : ∀ w ∈ below, w.ofOperands = true) :
    parts.flatten = [] := by
  induction h with
  | nil => rfl
  | @cons w part below parts hw _ ih =>
    have hpart : part = [] := by
      have := hbelow w (by simp)
      cases w <;> simp_all [ofOperands, Maps]
    rw [List.flatten_cons, hpart, ih fun u hu => hbelow u (List.mem_cons_of_mem _ hu)]
    rfl

theorem completed_stmts {ids : List StmtId} {parts : List (List PhiRange)}
    (h : List.Forall₂ (Maps a) (ids.map .stmt) parts) : Completed a ids parts.flatten := by
  induction ids generalizing parts with
  | nil =>
    cases h
    exact .nil
  | cons id ids ih =>
    cases h with
    | cons hid hids => exact Completed.append hid (ih hids)

/-- What is met below a statement: nothing at its operands, the maps of its blocks, and then its
own map. -/
theorem maps_stmtForm {f : Stmt.Form} {below : List Visit} {parts : List (List PhiRange)}
    (hsteps : a.steps (.stmtForm f) = below.map .ok) (h : List.Forall₂ (Maps a) below parts) :
    Maps a (.stmtForm f) parts.flatten := by
  have isBelow (vs : List Visit) (hvs : a.steps (.stmtForm f) = vs.map .ok) : vs = below :=
    Trail.map_ok_inj (hvs.symm.trans hsteps)
  have operands (hblocks : f.blocks = []) (hmerge : f.merge? = none)
      (hbelow : ∀ w ∈ below, w.ofOperands = true) : Maps a (.stmtForm f) parts.flatten := by
    refine ⟨[], ?_, ?_⟩
    · rw [hblocks]
      exact .nil
    · rw [flatten_maps_operands h hbelow, hmerge]
      rfl
  cases f with
  | assign l r =>
    obtain rfl := isBelow [.target l, .expr r] rfl
    exact operands rfl rfl (by simp [ofOperands])
  | eval e =>
    obtain rfl := isBelow [.expr e] rfl
    exact operands rfl rfl (by simp [ofOperands])
  | ret e =>
    obtain rfl := isBelow [.expr e] rfl
    exact operands rfl rfl (by simp [ofOperands])
  | comment n =>
    obtain rfl := isBelow [] rfl
    exact operands rfl rfl (by simp)
  | parFor g b =>
    obtain rfl := isBelow [.expr g, .expr b] rfl
    exact operands rfl rfl (by simp [ofOperands])
  | ifElse c t f m =>
    obtain rfl := isBelow [.expr c, .block t, .block f, .mergeIf m] rfl
    obtain ⟨whenTrue, whenFalse, ⟨ht, hf⟩, rfl⟩ : ∃ whenTrue whenFalse,
        (Completed a t.ids whenTrue ∧ Completed a f.ids whenFalse) ∧
          parts = [[], whenTrue, whenFalse, [m]] := by
      simpa [List.forall₂_cons_left_iff, Maps] using h
    refine ⟨whenTrue ++ whenFalse, ?_, by simp [Stmt.Form.merge?]⟩
    simpa [Stmt.Form.blocks] using Completed.append ht hf
  | whileLoop c b m =>
    obtain rfl := isBelow [.loopEntry m, .expr c, .block b, .loopRepeat m] rfl
    obtain ⟨inner, hb, rfl⟩ : ∃ inner, Completed a b.ids inner ∧ parts = [[], [], inner, [m]] := by
      simpa [List.forall₂_cons_left_iff, Maps] using h
    refine ⟨inner, ?_, by simp [Stmt.Form.merge?]⟩
    simpa [Stmt.Form.blocks] using hb
  | forLoop v i o s b m =>
    obtain rfl := isBelow
      [.target v, .expr i, .loopEntry m, .expr o, .block b, .expr s, .loopRepeat m] rfl
    obtain ⟨inner, hb, rfl⟩ : ∃ inner, Completed a b.ids inner ∧
        parts = [[], [], [], [], inner, [], [m]] := by
      simpa [List.forall₂_cons_left_iff, Maps] using h
    refine ⟨inner, ?_, by simp [Stmt.Form.merge?]⟩
    simpa [Stmt.Form.blocks] using hb

/-- A visit comes to the maps that are come to below it, and to its own before these. -/
theorem maps_step (v : Visit) (below : List Visit) (parts : List (List PhiRange))
    (hsteps : a.steps v = below.map .ok) (h : List.Forall₂ (Maps a) below parts) :
    Maps a v (v.map?.toList ++ parts.flatten) := by
  have isBelow (vs : List Visit) (hvs : a.steps v = vs.map .ok) : vs = below :=
    Trail.map_ok_inj (hvs.symm.trans hsteps)
  have operands (hv : v.ofOperands = true ∨ ∃ r, v = .merge r) : parts.flatten = [] := by
    refine flatten_maps_operands h fun w hw => ?_
    have hmem : .ok w ∈ a.steps v := by
      rw [hsteps]
      exact List.mem_map_of_mem hw
    exact ofOperands_of_mem_steps hv hmem
  cases v with
  | function f =>
    obtain rfl := isBelow [.block f.body] rfl
    obtain ⟨maps, hb, rfl⟩ := Trail.exists_of_forall₂_singleton h
    simpa [map?, Maps] using hb
  | block r =>
    have hids : a.steps (.block r) = (r.ids.map Visit.stmt).map .ok := by
      rw [a.steps_block, List.map_map]
      rfl
    obtain rfl := isBelow _ hids
    exact completed_stmts h
  | stmt id =>
    obtain ⟨f, span, hs, rfl⟩ := a.stmt_of_steps hsteps
    obtain ⟨_, ⟨inner, hinner, rfl⟩, rfl⟩ := Trail.exists_of_forall₂_singleton h
    have hdone : Completed a [id] (inner ++ f.merge?.toList ++ []) := .stmt hs hinner .nil
    simpa [map?, Maps] using hdone
  | stmtForm f => exact maps_stmtForm hsteps h
  | merge r =>
    rw [operands (.inr ⟨r, rfl⟩)]
    rfl
  | mergeIf r =>
    obtain rfl := isBelow [.merge r] rfl
    obtain ⟨_, rfl, rfl⟩ := Trail.exists_of_forall₂_singleton h
    rfl
  | loopRepeat r =>
    obtain rfl := isBelow [.merge r] rfl
    obtain ⟨_, rfl, rfl⟩ := Trail.exists_of_forall₂_singleton h
    rfl
  | _ => exact operands (.inl rfl)

end Visit

/-! ### The check of a function -/

theorem Arena.checkMerges_eq (a : Arena) (f : Function) :
    a.checkMerges f = ((MergeCheck.pass a).traverse a.depth [.visit (.function f)] #[]).1.map
      fun _ => ((MergeCheck.pass a).traverse a.depth [.visit (.function f)] #[]).2 := rfl

namespace MergeCheck

/-- How the check goes from one visit to the next. -/
def note (a : Arena) (found : Array Duplicate) : Visit → Array Duplicate
  | .merge r =>
    match a.merge? r with
    | some phis => check r phis found
    | none => found
  | _ => found

theorem follows (a : Arena) : (pass a).Follows a.steps (note a) where
  steps v found := by cases v <;> rfl
  state v found := by cases v <;> rfl

/-- The check finds the duplicates of the maps that it comes to, map after map. -/
theorem toList_foldl_note (a : Arena) (visits : List Visit) (found : Array Duplicate) :
    (visits.foldl (note a) found).toList = found.toList ++
      (visits.flatMap fun v => v.map?.toList).flatMap fun r => duplicates r (a.entries r) := by
  induction visits generalizing found with
  | nil => simp
  | cons v visits ih =>
    rw [List.foldl_cons, ih, List.flatMap_cons, List.flatMap_append, ← List.append_assoc]
    congr 1
    cases v with
    | merge r =>
      cases hr : a.merge? r with
      | none => simp [note, hr, Visit.map?, Arena.entries, duplicates]
      | some phis => simp [note, hr, Visit.map?, Arena.entries, toList_check]
    | _ => simp [note, Visit.map?]

theorem checkMerges_ok_iff_trail (a : Arena) (f : Function) (problems : Array Duplicate) :
    a.checkMerges f = .ok problems ↔
      ∃ n visits, Trail a.steps n [.ok (.function f)] visits none ∧
        visits.foldl (note a) #[] = problems :=
  (follows a).map_state_eq_ok_iff a.graded [.visit (.function f)] #[] problems

end MergeCheck

/-- The maps met on a trail are those of the statements, in the order in which these are done, and
all of them resolve. -/
theorem Trail.completed {a : Arena} {f : Function} {n : Nat} {visits : List Visit}
    (h : Trail a.steps n [.ok (.function f)] visits none) :
    Completed a f.body.ids (visits.flatMap fun v => v.map?.toList) ∧
      ∀ r ∈ visits.flatMap (fun v => v.map?.toList), ∃ phis, a.merge? r = some phis := by
  constructor
  · obtain ⟨parts, hparts, hmaps⟩ := h.compose Visit.maps_step rfl [.function f] rfl
    obtain ⟨maps, hf, rfl⟩ := exists_of_forall₂_singleton hparts
    rw [hmaps]
    simpa [Visit.Maps] using hf
  · intro r hr
    obtain ⟨v, hv, hvr⟩ := List.mem_flatMap.mp hr
    obtain rfl : v = .merge r := by
      cases v <;> simp_all [Visit.map?]
    have herror := h.error_notMem_next hv (.dangling (.merge r))
    rw [a.steps_merge] at herror
    cases hphis : a.merge? r with
    | none => simp [hphis] at herror
    | some phis => exact ⟨phis, rfl⟩

open MergeCheck in
/-- The check of a function gives a result just where the default traversal gets through.  The
result is made of the duplicates of the merge maps that the statements of the function have, in the
order in which the statements are done: there are none just where every map has each name once, and
for each map as many as it has entries beyond one for each name. -/
theorem checkMerges_eq_ok_iff (a : Arena) (f : Function) (problems : Array Duplicate) :
    a.checkMerges f = .ok problems ↔
      (∃ outs, (a.traverse (Pass.bare a) [.visit (.function f)] ()).1 = .ok outs) ∧
        ∃ maps, Completed a f.body.ids maps ∧
          problems.toList = maps.flatMap (fun r => duplicates r (a.entries r)) ∧
          (problems = #[] ↔ ∀ r ∈ maps, ((a.entries r).map Phi.name).Nodup) ∧
          ∀ r ∈ maps, ∃ phis, a.merge? r = some phis ∧
            (duplicates r phis).length + (phis.map Phi.name).toFinset.card = phis.length := by
  rw [checkMerges_ok_iff_trail, Pass.bare_ok_iff]
  constructor
  · rintro ⟨n, visits, ht, rfl⟩
    obtain ⟨hcompleted, hresolve⟩ := ht.completed
    have hproblems := toList_foldl_note a visits #[]
    rw [List.nil_append] at hproblems
    refine ⟨⟨n, visits, ht⟩, _, hcompleted, hproblems, ?_, fun r hr => ?_⟩
    · rw [← Array.toList_eq_nil_iff, hproblems, List.flatMap_eq_nil_iff]
      simp only [duplicates_eq_nil_iff]
    · obtain ⟨phis, hphis⟩ := hresolve r hr
      exact ⟨phis, hphis, length_duplicates r phis⟩
  · rintro ⟨⟨n, visits, ht⟩, maps, hcompleted, hproblems, -, -⟩
    obtain rfl := ht.completed.1.unique hcompleted
    refine ⟨n, visits, ht, ?_⟩
    rw [← Array.toList_inj, toList_foldl_note, hproblems]
    rfl

end MergeForm
