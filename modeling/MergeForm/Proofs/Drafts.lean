import MergeForm.Proofs.Closed
import MergeForm.Proofs.InternedNames
import MergeForm.Proofs.SyntaxTree

/-! Drafts that only grow.  What is stored in a draft is found under the number or run given out for
it, in that draft and in every later one, as long as the tables stay within the numbers that there
are. -/

namespace MergeForm

/-! ### Longer tables -/

section

variable {f : Family} {α : Type}

/-- The numbers from `first` up to `stop`, which is not among them. -/
def Id.between (first stop : Nat) : List (Id f) :=
  (List.range' first (stop - first)).map Id.ofIndex

theorem Id.between_append {first middle stop : Nat} (h : first ≤ middle) (h' : middle ≤ stop) :
    (between first middle : List (Id f)) ++ between middle stop = between first stop := by
  obtain ⟨m, rfl⟩ := Nat.exists_eq_add_of_le h
  obtain ⟨n, rfl⟩ := Nat.exists_eq_add_of_le h'
  rw [between, between, between, ← List.map_append, Nat.add_sub_cancel_left,
    Nat.add_sub_cancel_left, List.range'_append_1, Nat.add_assoc, Nat.add_sub_cancel_left]

@[simp] theorem Id.between_self (n : Nat) : (between n n : List (Id f)) = [] := by
  simp [between]

theorem Id.between_succ (n : Nat) : (between n (n + 1) : List (Id f)) = [ofIndex n] := by
  simp [between]

theorem Id.mem_between {first stop : Nat} (h : stop ≤ UInt32.size) {id : Id f} :
    id ∈ between first stop ↔ first ≤ id.index ∧ id.index < stop := by
  constructor
  · intro hid
    obtain ⟨n, hn, rfl⟩ := List.mem_map.mp hid
    obtain ⟨hfirst, hlt⟩ := List.mem_range'_1.mp hn
    rw [index_ofIndex (by omega)]
    omega
  · rintro ⟨hfirst, hlt⟩
    refine List.mem_map.mpr ⟨id.index, List.mem_range'_1.mpr ⟨hfirst, by omega⟩, ?_⟩
    exact id.ofIndex_index

theorem Id.nodup_between {first stop : Nat} (h : stop ≤ UInt32.size) :
    (between first stop : List (Id f)).Nodup := by
  refine List.Nodup.map_on (fun n hn m hm heq => ?_) List.nodup_range'
  have below {n : Nat} (hn : n ∈ List.range' first (stop - first)) : n < UInt32.size := by
    have := List.mem_range'_1.mp hn
    omega
  have hindex := congrArg Id.index heq
  rwa [index_ofIndex (below hn), index_ofIndex (below hm)] at hindex

theorem Slots.ids_slotsAfter {size count : Nat} (h : size + count < UInt32.size) :
    (Arena.slotsAfter size count : Slots f).ids = Id.between size (size + count) := by
  have hsize : size.toUInt32.toNat = size := UInt32.toNat_ofNat_of_lt (by omega)
  have hcount : count.toUInt32.toNat = count := UInt32.toNat_ofNat_of_lt (by omega)
  have hids : (Arena.slotsAfter size count : Slots f).idCount = count := by
    simp only [Slots.idCount, Slots.lastId, Slots.stop, Slots.first, Slots.size, Arena.slotsAfter,
      hsize, hcount]
    simp only [UInt32.size] at h
    omega
  rw [ids, hids, Id.between, Slots.first, Arena.slotsAfter, hsize]
  simp

/-- What was appended to a table is found in its slots in every longer table. -/
theorem Slots.entries?_slotsAfter {size : Nat} {table : List α} {more : List α} {later : Array α}
    (h : table ++ more <+: later.toList) (hsize : table.length = size)
    (hfits : later.size < UInt32.size) :
    (Arena.slotsAfter size more.length : Slots f).entries? later = some more := by
  have hle : table.length + more.length ≤ later.size := by simpa using h.length_le
  have hfirst : size.toUInt32.toNat = size := UInt32.toNat_ofNat_of_lt (by omega)
  have hcount : more.length.toUInt32.toNat = more.length := UInt32.toNat_ofNat_of_lt (by omega)
  obtain ⟨rest, hrest⟩ := h
  simp only [entries?, Slots.stop, Slots.first, Slots.size, Arena.slotsAfter, hfirst, hcount]
  rw [if_pos (by omega), Array.toList_extract, ← hrest, List.extract_eq_take_drop, ← hsize]
  simp

theorem getElem?_of_prefix {size i : Nat} {table : List α} {more : List α} {later : Array α}
    (h : table ++ more <+: later.toList) (hsize : table.length = size) {x : α}
    (hx : more[i]? = some x) : later[size + i]? = some x := by
  obtain ⟨rest, hrest⟩ := h
  have hi : i < more.length := (List.getElem?_eq_some_iff.mp hx).1
  rw [← Array.getElem?_toList, ← hrest, List.append_assoc, List.getElem?_append_right (by omega),
    show size + i - table.length = i by omega, List.getElem?_append_left hi, hx]

end

/-! ### Later drafts -/

namespace Draft

/-- The draft `d'` has all that `d` has, in the same places. -/
structure Extends (d d' : Draft) : Prop where
  names : d.names.texts.toList <+: d'.names.texts.toList
  exprs : d.arena.exprs.toList <+: d'.arena.exprs.toList
  operands : d.arena.operands.toList <+: d'.arena.operands.toList
  stmts : d.arena.stmts.toList <+: d'.arena.stmts.toList
  phis : d.arena.phis.toList <+: d'.arena.phis.toList

/-- There are numbers enough for everything in the draft: each name and each expression has one, and
each of the other tables ends at one. -/
structure Fits (d : Draft) : Prop where
  names : d.names.texts.size ≤ UInt32.size
  exprs : d.arena.exprs.size ≤ UInt32.size
  operands : d.arena.operands.size < UInt32.size
  stmts : d.arena.stmts.size < UInt32.size
  phis : d.arena.phis.size < UInt32.size

namespace Extends

variable {d d' d'' : Draft}

theorem refl (d : Draft) : d.Extends d :=
  ⟨List.prefix_refl _, List.prefix_refl _, List.prefix_refl _, List.prefix_refl _,
    List.prefix_refl _⟩

theorem trans (h : d.Extends d') (h' : d'.Extends d'') : d.Extends d'' :=
  ⟨h.names.trans h'.names, h.exprs.trans h'.exprs, h.operands.trans h'.operands,
    h.stmts.trans h'.stmts, h.phis.trans h'.phis⟩

theorem exprs_le (h : d.Extends d') : d.arena.exprs.size ≤ d'.arena.exprs.size := by
  simpa using h.exprs.length_le

theorem stmts_le (h : d.Extends d') : d.arena.stmts.size ≤ d'.arena.stmts.size := by
  simpa using h.stmts.length_le

end Extends

variable (d : Draft)

theorem extends_intern (s : String) : d.Extends (intern s d).2 :=
  { Extends.refl d with names := d.names.prefix_intern s }

theorem extends_expr (f : Expr.Form) (span : Span) : d.Extends (expr f span d).2 :=
  { Extends.refl d with exprs := by simp [expr, Arena.addExpr] }

theorem extends_list (ids : List ExprId) : d.Extends (list ids d).2 :=
  { Extends.refl d with operands := by simp [list, Arena.addList] }

theorem extends_block (parts : List (Stmt.Form × Span)) : d.Extends (block parts d).2 :=
  { Extends.refl d with stmts := by simp [block, Arena.addBlock] }

theorem extends_merge (phis : List Phi) : d.Extends (merge phis d).2 :=
  { Extends.refl d with phis := by simp [merge, Arena.addMerge] }

variable {d} {later : Draft}

theorem lookup_later {s : String} (h : (intern s d).2.Extends later) (hfits : later.Fits) :
    later.names.lookup (intern s d).1 = s :=
  Interner.lookup_intern h.names hfits.names

theorem expr?_later {f : Expr.Form} {span : Span} (h : (expr f span d).2.Extends later)
    (hfits : later.Fits) : later.arena.expr? (expr f span d).1 = some ⟨.form f, span⟩ := by
  have hprefix : d.arena.exprs.toList ++ [⟨.form f, span⟩] <+: later.arena.exprs.toList := by
    simpa [expr, Arena.addExpr] using h.exprs
  have hstored : later.arena.exprs[d.arena.exprs.size]? = some ⟨.form f, span⟩ :=
    getElem?_of_prefix hprefix Array.length_toList (i := 0) rfl
  have hlt := (Array.getElem?_eq_some_iff.mp hstored).1
  have hindex : (expr f span d).1.index = d.arena.exprs.size :=
    Id.index_ofIndex (hlt.trans_le hfits.exprs)
  rw [Arena.expr?, hindex, hstored]

theorem list?_later {ids : List ExprId} (h : (list ids d).2.Extends later) (hfits : later.Fits) :
    later.arena.list? (list ids d).1 = some ids := by
  refine Slots.entries?_slotsAfter ?_ Array.length_toList hfits.operands
  simpa [list, Arena.addList] using h.operands

theorem merge?_later {phis : List Phi} (h : (merge phis d).2.Extends later) (hfits : later.Fits) :
    later.arena.merge? (merge phis d).1 = some phis := by
  refine Slots.entries?_slotsAfter ?_ Array.length_toList hfits.phis
  simpa [merge, Arena.addMerge] using h.phis

/-- The statements of a block are found under the numbers of its run, in order. -/
theorem block_later {parts : List (Stmt.Form × Span)} (h : (block parts d).2.Extends later)
    (hfits : later.Fits) :
    (block parts d).1.ids = Id.between d.arena.stmts.size (block parts d).2.arena.stmts.size ∧
      List.Forall₂ (fun id p => later.arena.stmt? id = some ⟨.form p.1, p.2⟩)
        (block parts d).1.ids parts := by
  have hprefix : d.arena.stmts.toList ++ parts.map (fun p => (⟨.form p.1, p.2⟩ : Stmt)) <+:
      later.arena.stmts.toList := by
    simpa [block, Arena.addBlock] using h.stmts
  have hle : d.arena.stmts.size + parts.length ≤ later.arena.stmts.size := by
    simpa using hprefix.length_le
  have hsize : (block parts d).2.arena.stmts.size = d.arena.stmts.size + parts.length :=
    (size_appendList _ _).trans (by rw [List.length_map])
  have hids : (block parts d).1.ids =
      Id.between d.arena.stmts.size (d.arena.stmts.size + parts.length) := by
    rw [← Slots.ids_slotsAfter (hle.trans_lt hfits.stmts)]
    simp [block, Arena.addBlock]
  refine ⟨by rw [hids, hsize], List.forall₂_iff_get.mpr ⟨?_, fun i hi hi' => ?_⟩⟩
  · rw [hids, Id.between, List.length_map, List.length_range']
    omega
  · have hstored : later.arena.stmts[d.arena.stmts.size + i]? =
        some ⟨.form parts[i].1, parts[i].2⟩ :=
      getElem?_of_prefix hprefix Array.length_toList (by simp [List.getElem?_eq_getElem hi'])
    have hlt := (Array.getElem?_eq_some_iff.mp hstored).1
    simp only [List.get_eq_getElem, hids, Id.between, List.getElem_map, List.getElem_range',
      one_mul]
    rw [Arena.stmt?, Id.index_ofIndex (hlt.trans hfits.stmts), hstored]

end Draft

end MergeForm
