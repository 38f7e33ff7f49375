import MergeForm.Proofs.Drafts
import MergeForm.Proofs.Growth

/-! What has been stored stays where it is.  Whatever is added to an arena takes up the slots right
behind those in use, so the slots of one table are given out without a gap and none of them twice;
and what is found in them is the same for good.  As long as every slot has a number, a run can be
gone through by the numbers of its slots just as well. -/

namespace MergeForm

/-! ### The slots of a run -/

namespace Slots

variable {f : Family} {r : Slots f}

/-- The slots of the run, in order, whether they have a number or not. -/
def indices (r : Slots f) : List Nat := List.range' r.first r.size

theorem map_index_ids (h : r.stop < UInt32.size) : r.ids.map Id.index = r.indices := by
  rw [ids, idCount_eq_size h, List.map_map, indices]
  conv_rhs => rw [← List.map_id (List.range' r.first r.size)]
  refine List.map_congr_left fun n hn => ?_
  have hlt := (List.mem_range'_1.mp hn).2
  exact Id.index_ofIndex (hlt.trans h)

/-- What is found slot by slot is what is found in the run. -/
theorem map_getElem?_indices {α : Type} {table : Array α} {xs : List α}
    (h : r.entries? table = some xs) : r.indices.map (table[·]?) = xs.map some := by
  have hstop : r.stop ≤ table.size := (r.entries?_isSome_iff table).mp (by simp [h])
  obtain rfl : (table.extract r.first r.stop).toList = xs := by simpa [entries?, hstop] using h
  simp only [stop] at hstop
  apply List.ext_getElem
  · simp [indices, stop]
    omega
  · intro i hi hi'
    have hlt : r.first + i < table.size := by
      simp only [indices, List.length_map, List.length_range'] at hi
      omega
    simp [indices, Array.getElem?_eq_getElem hlt]

end Slots

/-! ### Additions -/

/-- Something to be stored. -/
inductive Addition
  | expr (e : Expr)
  | list (ids : List ExprId)
  | block (stmts : List Stmt)
  | merge (phis : List Phi)
  | function (f : Function)
  deriving DecidableEq

/-- Something stored, with the number or the run that was given out for it. -/
inductive Stored
  | expr (e : Expr) (id : ExprId)
  | list (ids : List ExprId) (r : ExprRange)
  | block (stmts : List Stmt) (r : StmtRange)
  | merge (phis : List Phi) (r : PhiRange)
  | function (f : Function) (id : FnId)
  deriving DecidableEq

/-- The tables of an arena. -/
inductive Table
  | exprs
  | operands
  | stmts
  | phis
  | functions
  deriving DecidableEq

namespace Stored

def addition : Stored → Addition
  | .expr e _ => .expr e
  | .list ids _ => .list ids
  | .block stmts _ => .block stmts
  | .merge phis _ => .merge phis
  | .function f _ => .function f

def table : Stored → Table
  | .expr _ _ => .exprs
  | .list _ _ => .operands
  | .block _ _ => .stmts
  | .merge _ _ => .phis
  | .function _ _ => .functions

/-- The first of the slots taken up. -/
def first : Stored → Nat
  | .expr _ id => id.index
  | .list _ r => r.first
  | .block _ r => r.first
  | .merge _ r => r.first
  | .function _ id => id.index

/-- The slot behind the last of those taken up. -/
def stop : Stored → Nat
  | .expr _ id => id.index + 1
  | .list _ r => r.stop
  | .block _ r => r.stop
  | .merge _ r => r.stop
  | .function _ id => id.index + 1

/-- The number or run resolves in `a` to what was stored. -/
def Found (a : Arena) : Stored → Prop
  | .expr e id => a.expr? id = some e
  | .list ids r => a.list? r = some ids
  | .block stmts r => a.block? r = some stmts
  | .merge phis r => a.merge? r = some phis
  | .function f id => a.function? id = some f

theorem first_le_stop (x : Stored) : x.first ≤ x.stop := by
  cases x <;> simp [first, stop, Slots.stop]

end Stored

namespace Arena

def count (a : Arena) : Table → Nat
  | .exprs => a.exprs.size
  | .operands => a.operands.size
  | .stmts => a.stmts.size
  | .phis => a.phis.size
  | .functions => a.functions.size

/-- Every table has fewer entries than there are numbers. -/
def Bounded (a : Arena) : Prop := ∀ t, a.count t < UInt32.size

def store (a : Arena) : Addition → Stored × Arena
  | .expr e => (.expr e (a.addExpr e).1, (a.addExpr e).2)
  | .list ids => (.list ids (a.addList ids).1, (a.addList ids).2)
  | .block stmts => (.block stmts (a.addBlock stmts).1, (a.addBlock stmts).2)
  | .merge phis => (.merge phis (a.addMerge phis).1, (a.addMerge phis).2)
  | .function f => (.function f (a.addFunction f).1, (a.addFunction f).2)

/-- Makes the additions one after the other. -/
def storeAll (a : Arena) : List Addition → List Stored × Arena
  | [] => ([], a)
  | x :: xs => ((a.store x).1 :: ((a.store x).2.storeAll xs).1, ((a.store x).2.storeAll xs).2)

/-- The arena `b` begins with the tables of `a`, that of the functions included. -/
structure Extends (a b : Arena) : Prop extends a.Begins b where
  functions : a.functions.toList <+: b.functions.toList

namespace Extends

variable {a b c : Arena}

theorem refl (a : Arena) : a.Extends a := ⟨.refl a, List.prefix_refl _⟩

theorem trans (h : a.Extends b) (h' : b.Extends c) : a.Extends c :=
  ⟨h.toBegins.trans h'.toBegins, h.functions.trans h'.functions⟩

theorem store (a : Arena) (x : Addition) : a.Extends (a.store x).2 := by
  cases x with
  | expr e => exact { refl a with exprs := by simp [Arena.store, addExpr] }
  | list ids => exact { refl a with operands := by simp [Arena.store, addList] }
  | block stmts => exact { refl a with stmts := by simp [Arena.store, addBlock] }
  | merge phis => exact { refl a with phis := by simp [Arena.store, addMerge] }
  | function f => exact { refl a with functions := by simp [Arena.store, addFunction] }

theorem storeAll (a : Arena) (xs : List Addition) : a.Extends (a.storeAll xs).2 := by
  induction xs generalizing a with
  | nil => exact refl a
  | cons x xs ih => exact (store a x).trans (ih (a.store x).2)

theorem count_le (h : a.Extends b) (t : Table) : a.count t ≤ b.count t := by
  cases t with
  | exprs => simpa [count] using h.exprs.length_le
  | operands => simpa [count] using h.operands.length_le
  | stmts => simpa [count] using h.stmts.length_le
  | phis => simpa [count] using h.phis.length_le
  | functions => simpa [count] using h.functions.length_le

theorem bounded (h : a.Extends b) (hb : b.Bounded) : a.Bounded :=
  fun t => (h.count_le t).trans_lt (hb t)

end Extends

end Arena

/-! ### Where a thing is found -/

namespace Arena

variable {a b : Arena} {x : Addition} {xs : List Addition}

/-- Under the number behind a table there is, in every longer table, what was put there. -/
theorem getElem?_ofIndex {α : Type} {f : Family} {table later : Array α} {new : α}
    (h : table.toList ++ [new] <+: later.toList) (hbound : later.size < UInt32.size) :
    later[(Id.ofIndex table.size : Id f).index]? = some new := by
  have hlt : table.size < later.size := Nat.lt_of_succ_le (by simpa using h.length_le)
  rw [Id.index_ofIndex (hlt.trans hbound)]
  exact getElem?_of_prefix h Array.length_toList (i := 0) rfl

/-- What has been stored is found in every arena that goes on from there. -/
theorem found_of_extends (h : (a.store x).2.Extends b) (hbound : b.Bounded) :
    (a.store x).1.Found b := by
  cases x with
  | expr e => exact getElem?_ofIndex (by simpa [store, addExpr] using h.exprs) (hbound .exprs)
  | list ids =>
    refine Slots.entries?_slotsAfter ?_ Array.length_toList (hbound .operands)
    simpa [store, addList] using h.operands
  | block stmts =>
    refine Slots.entries?_slotsAfter ?_ Array.length_toList (hbound .stmts)
    simpa [store, addBlock] using h.stmts
  | merge phis =>
    refine Slots.entries?_slotsAfter ?_ Array.length_toList (hbound .phis)
    simpa [store, addMerge] using h.phis
  | function f =>
    exact getElem?_ofIndex (by simpa [store, addFunction] using h.functions) (hbound .functions)

theorem extends_take (a : Arena) (xs : List Addition) (n : Nat) :
    (a.storeAll (xs.take n)).2.Extends (a.storeAll xs).2 := by
  induction xs generalizing a n with
  | nil => rw [List.take_nil]; exact .refl _
  | cons x xs ih =>
    cases n with
    | zero => exact .storeAll a (x :: xs)
    | succ n => exact ih (a.store x).2 n

/-- What the `n`-th addition has stored is found after each number of additions past it. -/
theorem found_after (hbound : (a.storeAll xs).2.Bounded) {n m : Nat} {y : Stored}
    (hy : (a.storeAll xs).1[n]? = some y) (hm : n < m) :
    y.Found (a.storeAll (xs.take m)).2 := by
  induction xs generalizing a n m with
  | nil => simp [storeAll] at hy
  | cons x xs ih =>
    obtain ⟨m, rfl⟩ : ∃ k, m = k + 1 := ⟨m - 1, by omega⟩
    cases n with
    | zero =>
      obtain rfl : (a.store x).1 = y := by simpa [storeAll] using hy
      have hlater := extends_take (a.store x).2 xs m
      exact found_of_extends (.storeAll (a.store x).2 (xs.take m)) (hlater.bounded hbound)
    -- The rest of the additions is a history of its own, which begins with the arena after `x`.
    | succ n => exact ih hbound (by simpa [storeAll] using hy) (by omega)

theorem map_addition_storeAll (a : Arena) (xs : List Addition) :
    (a.storeAll xs).1.map Stored.addition = xs := by
  induction xs generalizing a with
  | nil => rfl
  | cons x xs ih =>
    have hx : (a.store x).1.addition = x := by cases x <;> rfl
    have hxs := ih (a.store x).2
    simp only [storeAll, List.map_cons, hx, hxs]

end Arena

/-! ### Which slots are given out -/

/-- The slots from `first` up to `stop` are taken up one after the other, without a gap. -/
def Tiles : Nat → List Stored → Nat → Prop
  | first, [], stop => first = stop
  | first, x :: xs, stop => x.first = first ∧ Tiles x.stop xs stop

namespace Tiles

variable {first stop : Nat} {xs : List Stored}

theorem le (h : Tiles first xs stop) : first ≤ stop := by
  induction xs generalizing first with
  | nil => exact Nat.le_of_eq h
  | cons x xs ih =>
    obtain ⟨rfl, hxs⟩ := h
    exact x.first_le_stop.trans (ih hxs)

theorem le_first (h : Tiles first xs stop) : ∀ x ∈ xs, first ≤ x.first := by
  induction xs generalizing first with
  | nil => simp
  | cons x xs ih =>
    obtain ⟨rfl, hxs⟩ := h
    intro y hy
    rcases List.mem_cons.mp hy with rfl | hy
    · exact Nat.le_refl _
    · exact x.first_le_stop.trans (ih hxs y hy)

/-- Of two things in a table the slots of the one lie before those of the other. -/
theorem pairwise (h : Tiles first xs stop) : xs.Pairwise fun x y => x.stop ≤ y.first := by
  induction xs generalizing first with
  | nil => exact .nil
  | cons x xs ih => exact List.pairwise_cons.mpr ⟨h.2.le_first, ih h.2⟩

/-- Every slot in between is one of those taken up, and no other is. -/
theorem covers (h : Tiles first xs stop) (i : Nat) :
    (first ≤ i ∧ i < stop) ↔ ∃ x ∈ xs, x.first ≤ i ∧ i < x.stop := by
  induction xs generalizing first with
  | nil =>
    obtain rfl : first = stop := h
    simp
  | cons x xs ih =>
    obtain ⟨rfl, hxs⟩ := h
    have hle := hxs.le
    have hx := x.first_le_stop
    have hrest := ih hxs
    simp only [List.exists_mem_cons_iff, ← hrest]
    omega

end Tiles

namespace Arena

variable {a : Arena} {x : Addition} {xs : List Addition}

theorem ofIndex_slot {α : Type} {f : Family} {table : Array α} {new : α}
    (h : (table.push new).size < UInt32.size) :
    (Id.ofIndex table.size : Id f).index = table.size ∧
      (Id.ofIndex table.size : Id f).index + 1 = (table.push new).size := by
  rw [Array.size_push] at h ⊢
  rw [Id.index_ofIndex (Nat.lt_of_succ_lt h)]
  exact ⟨rfl, rfl⟩

theorem slotsAfter_slots {α : Type} {f : Family} {table : Array α} {more : List α}
    (h : (table.appendList more).size < UInt32.size) :
    (slotsAfter table.size more.length : Slots f).first = table.size ∧
      (slotsAfter table.size more.length : Slots f).stop = (table.appendList more).size := by
  rw [size_appendList] at h ⊢
  have hfirst : table.size.toUInt32.toNat = table.size := UInt32.toNat_ofNat_of_lt (by omega)
  have hcount : more.length.toUInt32.toNat = more.length := UInt32.toNat_ofNat_of_lt (by omega)
  simp only [slotsAfter, Slots.stop, Slots.first, Slots.size, hfirst, hcount, and_self]

/-- What is stored takes up the slots from the end of its table on, up to the new end. -/
theorem slots_store (hbound : (a.store x).2.Bounded) :
    (a.store x).1.first = a.count (a.store x).1.table ∧
      (a.store x).1.stop = (a.store x).2.count (a.store x).1.table := by
  cases x with
  | expr e => exact ofIndex_slot (hbound .exprs)
  | list ids => exact slotsAfter_slots (hbound .operands)
  | block stmts => exact slotsAfter_slots (hbound .stmts)
  | merge phis => exact slotsAfter_slots (hbound .phis)
  | function f => exact ofIndex_slot (hbound .functions)

theorem count_store_of_ne {t : Table} (h : (a.store x).1.table ≠ t) :
    (a.store x).2.count t = a.count t := by
  cases x <;> cases t <;> first | rfl | exact absurd rfl h

/-- All slots that additions have taken up in one table, in order. -/
theorem tiles_storeAll (hbound : (a.storeAll xs).2.Bounded) (t : Table) :
    Tiles (a.count t) ((a.storeAll xs).1.filter fun y => y.table = t)
      ((a.storeAll xs).2.count t) := by
  induction xs generalizing a with
  | nil => rfl
  | cons x xs ih =>
    have hrest := ih hbound
    obtain ⟨hfirst, hstop⟩ := slots_store ((Extends.storeAll (a.store x).2 xs).bounded hbound)
    by_cases ht : (a.store x).1.table = t
    · subst ht
      rw [← hstop] at hrest
      simpa [storeAll] using ⟨hfirst, hrest⟩
    · rw [count_store_of_ne ht] at hrest
      simpa [storeAll, ht] using hrest

end Arena

/-! ### Stored for good -/

/-- The things stored in a table of `size` entries take up its slots in order: each begins where the
one before it ends, no slot is that of two of them, and every slot of the table is that of one. -/
structure Partitions (xs : List Stored) (size : Nat) : Prop where
  adjacent : Tiles 0 xs size
  disjoint : xs.Pairwise fun x y => x.stop ≤ y.first
  covers : ∀ i, i < size ↔ ∃ x ∈ xs, x.first ≤ i ∧ i < x.stop

/-- A run resolves just where it ends within its table.  One that has numbers of its own resolves to
what is found under these, and they are those of all its slots. -/
structure Arena.Addressed (a : Arena) : Prop where
  list_iff : ∀ r, (∃ ids, a.list? r = some ids) ↔ r.stop ≤ a.count .operands
  block_iff : ∀ r, (∃ stmts, a.block? r = some stmts) ↔ r.stop ≤ a.count .stmts
  merge_iff : ∀ r, (∃ phis, a.merge? r = some phis) ↔ r.stop ≤ a.count .phis
  block_ids : ∀ r stmts, a.block? r = some stmts →
    r.ids.map Id.index = r.indices ∧ r.ids.map a.stmt? = stmts.map some
  merge_ids : ∀ r phis, a.merge? r = some phis →
    r.ids.map Id.index = r.indices ∧ r.ids.map a.phi? = phis.map some

theorem Slots.ids_entries {f : Family} {α : Type} {r : Slots f} {table : Array α} {xs : List α}
    (hbound : table.size < UInt32.size) (h : r.entries? table = some xs) :
    r.ids.map Id.index = r.indices ∧ r.ids.map (fun id => table[id.index]?) = xs.map some := by
  have hstop : r.stop ≤ table.size := (r.entries?_isSome_iff table).mp (by simp [h])
  have hids := r.map_index_ids (hstop.trans_lt hbound)
  refine ⟨hids, ?_⟩
  rw [← map_getElem?_indices h, ← hids, List.map_map]
  rfl

theorem Arena.Bounded.addressed {a : Arena} (h : a.Bounded) : a.Addressed where
  list_iff r := by rw [← Option.isSome_iff_exists]; exact r.entries?_isSome_iff a.operands
  block_iff r := by rw [← Option.isSome_iff_exists]; exact r.entries?_isSome_iff a.stmts
  merge_iff r := by rw [← Option.isSome_iff_exists]; exact r.entries?_isSome_iff a.phis
  block_ids _ _ := Slots.ids_entries (h .stmts)
  merge_ids _ _ := Slots.ids_entries (h .phis)

/-- Whatever is stored in an arena that was empty at first, as long as there are numbers enough: all
that has been stored is found under its number or in its run at every time after that; the slots of
each table are given out in order, without a gap and once each; and at every time runs resolve by
where they end, and to what is found under the numbers of their slots. -/
theorem Arena.storeAll_lasting (xs : List Addition) (h : (empty.storeAll xs).2.Bounded) :
    (empty.storeAll xs).1.map Stored.addition = xs ∧
      (∀ (n m : Nat) (y : Stored), (empty.storeAll xs).1[n]? = some y → n < m →
        y.Found (empty.storeAll (xs.take m)).2) ∧
      (∀ t, Partitions ((empty.storeAll xs).1.filter fun y => y.table = t)
        ((empty.storeAll xs).2.count t)) ∧
      ∀ m, (empty.storeAll (xs.take m)).2.Addressed := by
  refine ⟨map_addition_storeAll empty xs, fun n m y => found_after h, fun t => ?_, fun m => ?_⟩
  · have htiles : Tiles 0 ((empty.storeAll xs).1.filter fun y => y.table = t)
        ((empty.storeAll xs).2.count t) := by
      have hzero : empty.count t = 0 := by cases t <;> rfl
      simpa [hzero] using tiles_storeAll h t
    exact ⟨htiles, htiles.pairwise, fun i => by simpa using htiles.covers i⟩
  · exact ((extends_take empty xs m).bounded h).addressed

/-- Two blocks with a list between them, and an empty list and an empty map. -/
def mixedAdditions : List Addition :=
  [.list [], .block [⟨.form (.eval ⟨0⟩), .dummy⟩], .expr ⟨.form (.var ⟨1⟩), .dummy⟩,
    .list [⟨0⟩, ⟨0⟩], .merge [], .block [⟨.form (.ret ⟨0⟩), .dummy⟩, ⟨.error, .dummy⟩], .list [⟨0⟩]]

theorem mixedAdditions_lasting :
    (Arena.empty.storeAll mixedAdditions).2.Bounded ∧
      (Arena.empty.storeAll (mixedAdditions.take 6)).2.block? ⟨1, 2⟩ =
        some [⟨.form (.ret ⟨0⟩), .dummy⟩, ⟨.error, .dummy⟩] ∧
      Partitions [.list [] ⟨0, 0⟩, .list [⟨0⟩, ⟨0⟩] ⟨0, 2⟩, .list [⟨0⟩] ⟨2, 1⟩] 3 := by
  have hbound : (Arena.empty.storeAll mixedAdditions).2.Bounded := by
    intro t
    cases t <;> decide
  obtain ⟨-, hfound, hslots, -⟩ := Arena.storeAll_lasting mixedAdditions hbound
  exact ⟨hbound, hfound 5 6 (.block _ ⟨1, 2⟩) rfl (by decide), hslots .operands⟩

end MergeForm
