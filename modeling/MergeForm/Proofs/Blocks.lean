import MergeForm.Proofs.Closed
import MergeForm.Proofs.MergeMaps
import MergeForm.Proofs.VarNames

/-! Blocks that do not resolve.  A block is gone through by the numbers of its slots, and slots from
the reserved number on have none; so the numbers of a run may all be stored where the run itself
reaches past the table.  Wherever this is not so, a block that does not resolve stops every
traversal that comes to it. -/

namespace MergeForm

/-! ### Slots without a number -/

/-- The run goes on past the last number, while all numbers of its slots are those of a table of
`size` entries: there are none, since the run starts at the reserved number, or the table has an
entry for every number. -/
def Slots.Unnumbered {f : Family} (r : Slots f) (size : Nat) : Prop :=
  0xFFFFFFFF < r.stop ∧ (r.first = 0xFFFFFFFF ∨ 0xFFFFFFFF ≤ size)

namespace Slots

variable {f : Family} {r : Slots f}

instance (size : Nat) : Decidable (r.Unnumbered size) := inferInstanceAs (Decidable (_ ∧ _))

theorem first_le (r : Slots f) : r.first ≤ 0xFFFFFFFF := Nat.le_of_lt_succ r.start.toNat_lt

theorem ids_eq_nil (h : r.first = 0xFFFFFFFF) : r.ids = [] := by
  have hcount : r.idCount = 0 := by
    simp only [idCount, lastId]
    omega
  simp [ids, hcount]

/-- The numbers of a run are all below `size` just where the run ends there, or goes on past the
last number. -/
theorem ids_below_iff (h : 0 < r.size) (size : Nat) :
    (∀ id ∈ r.ids, id.index < size) ↔ r.stop ≤ size ∨ r.Unnumbered size := by
  have hfirst := r.first_le
  constructor
  · intro hids
    by_contra hneither
    obtain ⟨hstop, hnumbered⟩ := not_or.mp hneither
    -- The first slot that is not below `size` is in the run and has a number.
    have hlast : max r.first size < r.lastId := by
      simp only [Unnumbered, lastId, Slots.stop] at hstop hnumbered ⊢
      omega
    have hlt := hids (Id.ofIndex (max r.first size)) <| by
      refine List.mem_map_of_mem (List.mem_range'_1.mpr ⟨le_max_left _ _, ?_⟩)
      simp only [idCount]
      omega
    rw [Id.index_ofIndex (by simp only [lastId] at hlast; simp only [UInt32.size]; omega)] at hlt
    omega
  · rintro (hstop | ⟨-, hreserved | hfull⟩) id hid
    · exact (index_lt_of_mem_ids hid).trans_le hstop
    · simp [ids_eq_nil hreserved] at hid
    · obtain ⟨n, hn, rfl⟩ := List.mem_map.mp hid
      obtain ⟨-, hlt⟩ := List.mem_range'_1.mp hn
      simp only [idCount, lastId] at hlt
      rw [Id.index_ofIndex (by simp only [UInt32.size]; omega)]
      omega

end Slots

/-! ### Blocks on the way of a traversal -/

/-- Functions, blocks and statements have their default steps. -/
structure EntersBlocks (a : Arena) (next : Visit → List (Except Fault Visit)) : Prop where
  function : ∀ f, next (.function f) = a.steps (.function f)
  block : ∀ r, next (.block r) = a.steps (.block r)
  stmt : ∀ id, next (.stmt id) = a.steps (.stmt id)
  stmtForm : ∀ s, next (.stmtForm s) = a.steps (.stmtForm s)

theorem Arena.entersBlocks (a : Arena) : EntersBlocks a a.steps :=
  ⟨fun _ => rfl, fun _ => rfl, fun _ => rfl, fun _ => rfl⟩

theorem VarSummary.entersBlocks (a : Arena) : EntersBlocks a (steps a) :=
  ⟨fun _ => rfl, fun _ => rfl, fun _ => rfl, fun _ => rfl⟩

theorem Arena.block_mem_steps (a : Arena) {s : Stmt.Form} {r : StmtRange} (h : r ∈ s.blocks) :
    .ok (.block r) ∈ a.steps (.stmtForm s) := by
  cases s <;> simp [Stmt.Form.blocks] at h <;> simp [steps, plan, stmtPlan, Task.steps, h]

namespace EntersBlocks

variable {a : Arena} {next : Visit → List (Except Fault Visit)} {n : Nat}
  {steps : List (Except Fault Visit)} {visits : List Visit}

theorem nested_mem (h : EntersBlocks a next) (ht : Trail next n steps visits none)
    {r r' : StmtRange} (hr : .block r ∈ visits) (hnest : Relation.ReflTransGen a.Nests r r') :
    .block r' ∈ visits := by
  induction hnest with
  | refl => exact hr
  | tail _ hstep ih =>
    obtain ⟨x, hx, s, span, hs, hblock⟩ := hstep
    have hstmt : .stmt x ∈ visits := ht.mem_of_mem_next ih <| by
      rw [h.block, a.steps_block]
      exact List.mem_map_of_mem hx
    have hform : .stmtForm s ∈ visits := ht.mem_of_mem_next hstmt <| by
      rw [h.stmt, Arena.ok_mem_steps_stmt]
      exact ⟨s, span, hs, rfl⟩
    exact ht.mem_of_mem_next hform (by rw [h.stmtForm]; exact a.block_mem_steps hblock)

theorem ids_below (h : EntersBlocks a next) (ht : Trail next n steps visits none)
    {r : StmtRange} (hr : .block r ∈ visits) : ∀ id ∈ r.ids, id.index < a.stmts.size := by
  intro id hid
  have hstmt : .stmt id ∈ visits := ht.mem_of_mem_next hr <| by
    rw [h.block, a.steps_block]
    exact List.mem_map_of_mem hid
  by_contra hlt
  have hnone : a.stmt? id = none := Array.getElem?_eq_none (Nat.not_lt.mp hlt)
  refine ht.error_notMem_next hstmt (.dangling (.stmt id)) ?_
  simp [h.stmt, a.steps_stmt, hnone]

/-- A block that is met without a fault resolves, unless some of its slots have no number. -/
theorem resolves_or_unnumbered (h : EntersBlocks a next) (ht : Trail next n steps visits none)
    {r : StmtRange} (hr : .block r ∈ visits) (hsize : 0 < r.size) :
    (∃ stmts, a.block? r = some stmts) ∨ r.Unnumbered a.stmts.size := by
  refine ((Slots.ids_below_iff hsize _).mp (h.ids_below ht hr)).imp_left fun hstop => ?_
  exact Option.isSome_iff_exists.mp ((r.entries?_isSome_iff a.stmts).mpr hstop)

theorem function_mem (h : EntersBlocks a next) {f : Function}
    (ht : Trail next n [.ok (.function f)] visits none) {r : StmtRange}
    (hr : Relation.ReflTransGen a.Nests f.body r) : .block r ∈ visits := by
  have hfunction : .function f ∈ visits := by
    cases ht
    simp
  refine h.nested_mem ht (ht.mem_of_mem_next hfunction ?_) hr
  simp [h.function, Arena.steps, Arena.plan, Task.steps]

end EntersBlocks

/-! ### Traversals that come to the block -/

theorem Pass.ok_or_fault_bare {a : Arena} {tasks : List Task} (h : a.Terminates tasks) :
    (∃ outs, (a.traverse (bare a) tasks ()).1 = .ok outs) ∨
      ∃ g, (a.traverse (bare a) tasks ()).1 = .fault g := by
  have hend := ((follows_bare a).terminates_iff (Nat.le_refl _) ()).mpr h
  rw [Arena.traverse]
  cases hrun : (traverse (bare a) a.depth tasks ()).1 with
  | ok outs => exact .inl ⟨outs, rfl⟩
  | fault g => exact .inr ⟨g, rfl⟩
  | tooDeep => exact absurd hrun hend

/-- A block that starts at the reserved number is passed over. -/
theorem Arena.traverse_reserved (a : Arena) {r : StmtRange} (h : r.first = 0xFFFFFFFF) :
    a.traverse (.bare a) [.visit (.block r)] () = (.ok [], ()) := by
  obtain ⟨depth, hdepth⟩ : ∃ depth, a.depth = depth + 1 :=
    Nat.exists_eq_add_one.mpr (Nat.mul_pos (by omega) (by omega))
  have hsteps : ((Pass.bare a).hook (.block r) ()).1.steps = [] := by
    change a.steps (.block r) = []
    rw [a.steps_block, Slots.ids_eq_nil h, List.map_nil]
  rw [Arena.traverse, Pass.traverse_visit, hdepth, Pass.visit_eq, hsteps]
  rfl

/-- A block with slots that does not resolve stops every traversal that comes to it, the check of
merge maps and the collection of names included, unless all numbers of its slots are stored. -/
theorem unresolved_block_stops (a : Arena) {r : StmtRange} (hsize : 0 < r.size)
    (hnone : a.block? r = none) (hnumbered : ¬r.Unnumbered a.stmts.size) :
    (∀ outs, (a.traverse (.bare a) [.visit (.block r)] ()).1 ≠ .ok outs) ∧
    (a.Terminates [.visit (.block r)] →
      ∃ g, (a.traverse (.bare a) [.visit (.block r)] ()).1 = .fault g) ∧
    (∀ s : Stmt.Form, r ∈ s.blocks →
      ∀ outs, (a.traverse (.bare a) [.visit (.stmtForm s)] ()).1 ≠ .ok outs) ∧
    ∀ f : Function, Relation.ReflTransGen a.Nests f.body r →
      (∀ outs, (a.traverse (.bare a) [.visit (.function f)] ()).1 ≠ .ok outs) ∧
      (∀ problems, a.checkMerges f ≠ .ok problems) ∧ ∀ vars, a.collectVars f ≠ .ok vars := by
  have notMet {next : Visit → List (Except Fault Visit)} (h : EntersBlocks a next) {n : Nat}
      {steps : List (Except Fault Visit)} {visits : List Visit}
      (ht : Trail next n steps visits none) : .block r ∉ visits := fun hr => by
    rcases h.resolves_or_unnumbered ht hr hsize with ⟨stmts, hstmts⟩ | hr
    · simp [hnone] at hstmts
    · exact hnumbered hr
  have block : ∀ outs, (a.traverse (.bare a) [.visit (.block r)] ()).1 ≠ .ok outs := by
    intro outs hrun
    obtain ⟨n, visits, ht⟩ := Pass.bare_ok_iff.mp ⟨outs, hrun⟩
    refine notMet a.entersBlocks ht ?_
    cases ht
    simp
  refine ⟨block, fun hterm => ?_, fun s hs outs hrun => ?_, fun f hf => ⟨?_, ?_, ?_⟩⟩
  · exact (Pass.ok_or_fault_bare hterm).resolve_left fun ⟨outs, hrun⟩ => block outs hrun
  · obtain ⟨n, visits, ht⟩ := Pass.bare_ok_iff.mp ⟨outs, hrun⟩
    refine notMet a.entersBlocks ht (ht.mem_of_mem_next ?_ (a.block_mem_steps hs))
    cases ht
    simp
  · intro outs hrun
    obtain ⟨n, visits, ht⟩ := Pass.bare_ok_iff.mp ⟨outs, hrun⟩
    exact notMet a.entersBlocks ht (a.entersBlocks.function_mem ht hf)
  · intro problems hrun
    obtain ⟨n, visits, ht, -⟩ := (MergeCheck.checkMerges_ok_iff_trail a f problems).mp hrun
    exact notMet a.entersBlocks ht (a.entersBlocks.function_mem ht hf)
  · intro vars hrun
    obtain ⟨n, visits, ht, -⟩ := VarSummary.collectVars_ok_iff_trail.mp hrun
    have henters := VarSummary.entersBlocks a
    exact notMet henters ht (henters.function_mem ht hf)

/-- A function with a loop whose body is past the table of statements. -/
def loopPastEnd : Arena :=
  { Arena.empty with
    exprs := #[⟨.form (.const (.bool true)), .dummy⟩]
    stmts := #[⟨.form (.whileLoop ⟨0⟩ ⟨1, 2⟩ .empty), .dummy⟩]
    functions := #[⟨.empty, .untyped, [], ⟨0, 1⟩, .dummy⟩] }

theorem loopPastEnd_stops :
    0 < (⟨1, 2⟩ : StmtRange).size ∧ loopPastEnd.block? ⟨1, 2⟩ = none ∧
      ¬(⟨1, 2⟩ : StmtRange).Unnumbered loopPastEnd.stmts.size ∧
      (∀ problems, loopPastEnd.checkMerges loopPastEnd.functions[0] ≠ .ok problems) ∧
      ∀ vars, loopPastEnd.collectVars loopPastEnd.functions[0] ≠ .ok vars := by
  have hsize : 0 < (⟨1, 2⟩ : StmtRange).size := by decide
  have hnone : loopPastEnd.block? ⟨1, 2⟩ = none := by decide
  have hnumbered : ¬(⟨1, 2⟩ : StmtRange).Unnumbered loopPastEnd.stmts.size := by decide
  obtain ⟨-, -, -, stops⟩ := unresolved_block_stops loopPastEnd hsize hnone hnumbered
  refine ⟨hsize, hnone, hnumbered, (stops _ (.single ⟨⟨0⟩, ?_, ?_⟩)).2⟩
  · decide
  · exact ⟨.whileLoop ⟨0⟩ ⟨1, 2⟩ .empty, .dummy, rfl, by decide⟩

/-- A block with one slot, from the reserved number on, does not resolve and stops nothing. -/
theorem reserved_block_passes :
    ∃ r : StmtRange, 0 < r.size ∧ Arena.empty.block? r = none ∧
      (Arena.empty.traverse (.bare .empty) [.visit (.block r)] ()).1 = .ok [] ∧
      ∃ f : Function, f.body = r ∧
        (Arena.empty.traverse (.bare .empty) [.visit (.function f)] ()).1 = .ok [] ∧
        Arena.empty.checkMerges f = .ok #[] ∧ Arena.empty.collectVars f = .ok .empty := by
  refine ⟨⟨0xFFFFFFFF, 1⟩, by decide, by decide, ?_,
    ⟨.empty, .untyped, [], ⟨0xFFFFFFFF, 1⟩, .dummy⟩, rfl, ?_, ?_, ?_⟩
  · rw [Arena.traverse_reserved _ rfl]
  · rw [Arena.traverse, Pass.traverse_eq]
    decide
  · rw [Arena.checkMerges, MergeCheck.run, Pass.traverse_eq]
    rfl
  · rw [Arena.collectVars, VarSummary.run, Pass.traverse_eq]
    rfl

end MergeForm
