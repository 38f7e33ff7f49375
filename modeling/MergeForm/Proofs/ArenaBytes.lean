import MergeForm.Bytes.Program
import MergeForm.Proofs.Wire

/-! The byte form of an arena is read back from any bytes that begin with it, and whatever is read
as an arena begins with the byte form of that arena. -/

namespace MergeForm

open Wire

variable {bytes rest : List UInt8}

/-! ### Small values -/

instance {f : Family} : Exact (Id f) where
  decode_iff {id bytes rest} := by
    show (Id.mk <$> decode) bytes = .ok (id, rest) ↔ bytes = encode id.val ++ rest
    cases id
    simp

instance {f : Family} : Exact (Slots f) where
  decode_iff {r bytes rest} := by
    show (Slots.mk <$> decode <*> decode) bytes = .ok (r, rest) ↔
      bytes = encode r.start ++ encode r.len ++ rest
    cases r
    simp

instance : Exact Name where
  decode_iff {n bytes rest} := by
    show (Name.mk <$> decode) bytes = .ok (n, rest) ↔ bytes = encode n.val ++ rest
    cases n
    simp

instance : Exact Span where
  decode_iff {s bytes rest} := by
    show (Span.mk <$> decode <*> decode) bytes = .ok (s, rest) ↔
      bytes = encode s.start ++ encode s.stop ++ rest
    cases s
    simp

/-- A primitive is written as its place among all primitives, where none stands twice. -/
theorem Prim.alternatives : Alternatives (all.map pure) (encode : Prim → List UInt8) where
  few := by decide
  sound := by
    rintro ⟨d, i⟩ hp p tail rest h
    have hd := List.mk_mem_zipIdx_iff_getElem?.mp hp
    rw [List.getElem?_map, Option.map_eq_some_iff] at hd
    obtain ⟨q, hq, rfl⟩ := hd
    obtain ⟨rfl, rfl⟩ := Decoder.pure_eq_ok_iff.mp h
    obtain ⟨hi, rfl⟩ := List.getElem?_eq_some_iff.mp hq
    show variant i tail = variant (all.idxOf all[i]) [] ++ tail
    rw [nodup_all.idxOf_getElem i hi, variant_append, List.nil_append]
  complete := by
    intro p
    have hp : all[all.idxOf p]? = some p := by
      have hlt := List.idxOf_lt_length_of_mem (mem_all p)
      rw [List.getElem?_eq_getElem hlt, List.getElem_idxOf]
    refine ⟨all.idxOf p, [], pure p, rfl, ?_, fun rest => by simp⟩
    rw [List.getElem?_map, hp, Option.map_some]

instance : Exact Prim where
  decode_iff := Prim.alternatives.choose_iff

theorem Typing.alternatives :
    Alternatives [pure untyped, pure typed] (encode : Typing → List UInt8) where
  few := by decide
  sound := by
    simp only [List.zipIdx_cons, List.zipIdx_nil, List.forall_mem_cons, List.not_mem_nil,
      false_implies, implies_true, and_true, Decoder.pure_eq_ok_iff]
    constructor
    · rintro _ _ _ ⟨rfl, rfl⟩
      rfl
    · rintro _ _ _ ⟨rfl, rfl⟩
      rfl
  complete := by
    intro t
    cases t <;> exact ⟨_, _, _, rfl, rfl, fun rest => by simp⟩

instance : Exact Typing where
  decode_iff := Typing.alternatives.choose_iff

theorem Const.alternatives :
    Alternatives [int <$> decode, float <$> decode, bool <$> decode, pure none]
      (encode : Const → List UInt8) where
  few := by decide
  sound := by
    simp only [List.zipIdx_cons, List.zipIdx_nil, List.forall_mem_cons, List.not_mem_nil,
      false_implies, implies_true, and_true, Decoder.pure_eq_ok_iff, Decoder.map_eq_ok_iff,
      decode_eq_ok_iff]
    refine ⟨?_, ?_, ?_, ?_⟩
    · rintro _ _ _ ⟨n, rfl, rfl⟩
      rfl
    · rintro _ _ _ ⟨n, rfl, rfl⟩
      rfl
    · rintro _ _ _ ⟨b, rfl, rfl⟩
      rfl
    · rintro _ _ _ ⟨rfl, rfl⟩
      rfl
  complete := by
    intro c
    cases c <;> exact ⟨_, _, _, rfl, rfl, fun rest => by simp⟩

instance : Exact Const where
  decode_iff := Const.alternatives.choose_iff

/-! ### Nodes -/

namespace Expr

theorem formAlternatives : Alternatives formDecoders Form.encode where
  few := by decide
  -- One alternative after the other: what its decoder reads, put in place of the bytes.
  sound := by
    simp only [formDecoders, List.zipIdx_cons, List.zipIdx_nil, List.forall_mem_cons,
      List.not_mem_nil, false_implies, implies_true, and_true, Decoder.map_eq_ok_iff,
      Decoder.seq_eq_ok_iff, decode_eq_ok_iff, forall_exists_index, and_imp, existsAndEq]
    and_intros
    all_goals
      intros
      subst_vars
      simp only [Form.encode, variant_append, List.append_assoc, Nat.reduceAdd]
  complete := by
    intro f
    cases f <;> exact ⟨_, _, _, rfl, rfl, fun rest => by simp⟩

theorem Kind.eq_error_or_form (k : Kind) : k = .error ∨ ∃ f, k = .form f := by
  cases k with
  | form f => exact .inr ⟨f, rfl⟩
  | error => exact .inl rfl

theorem kindAlternatives :
    Alternatives (formDecoders.map (fun d => Kind.form <$> d) ++ [pure Kind.error])
      (encode : Kind → List UInt8) :=
  formAlternatives.placeholder (by decide) (fun _ => rfl) rfl Kind.eq_error_or_form

instance : Exact Kind where
  decode_iff := kindAlternatives.choose_iff

end Expr

instance : Exact Expr where
  decode_iff {e bytes rest} := by
    show (Expr.mk <$> decode <*> decode) bytes = .ok (e, rest) ↔
      bytes = encode e.kind ++ encode e.span ++ rest
    cases e
    simp

namespace Stmt

theorem formAlternatives : Alternatives formDecoders Form.encode where
  few := by decide
  sound := by
    simp only [formDecoders, List.zipIdx_cons, List.zipIdx_nil, List.forall_mem_cons,
      List.not_mem_nil, false_implies, implies_true, and_true, Decoder.map_eq_ok_iff,
      Decoder.seq_eq_ok_iff, decode_eq_ok_iff, forall_exists_index, and_imp, existsAndEq]
    and_intros
    all_goals
      intros
      subst_vars
      simp only [Form.encode, variant_append, List.append_assoc, Nat.reduceAdd]
  complete := by
    intro f
    cases f <;> exact ⟨_, _, _, rfl, rfl, fun rest => by simp⟩

theorem Kind.eq_error_or_form (k : Kind) : k = .error ∨ ∃ f, k = .form f := by
  cases k with
  | form f => exact .inr ⟨f, rfl⟩
  | error => exact .inl rfl

theorem kindAlternatives :
    Alternatives (formDecoders.map (fun d => Kind.form <$> d) ++ [pure Kind.error])
      (encode : Kind → List UInt8) :=
  formAlternatives.placeholder (by decide) (fun _ => rfl) rfl Kind.eq_error_or_form

instance : Exact Kind where
  decode_iff := kindAlternatives.choose_iff

end Stmt

instance : Exact Stmt where
  decode_iff {s bytes rest} := by
    show (Stmt.mk <$> decode <*> decode) bytes = .ok (s, rest) ↔
      bytes = encode s.kind ++ encode s.span ++ rest
    cases s
    simp

instance : Exact Phi where
  decode_iff {p bytes rest} := by
    show (Phi.mk <$> decode <*> decode <*> decode) bytes = .ok (p, rest) ↔
      bytes = encode p.name ++ encode p.left ++ encode p.right ++ rest
    cases p
    simp

/-! ### Functions and arenas -/

theorem decode_function_iff {f : Function} :
    decode bytes = .ok (f, rest) ↔ f.params.length < 2 ^ 64 ∧ bytes = encode f ++ rest := by
  show (Function.mk <$> decode <*> decode <*> decode <*> decode <*> decode) bytes = .ok (f, rest) ↔
    _ ∧ bytes = encode f.name ++ encode f.typing ++ encode f.params ++ encode f.body ++
      encode f.span ++ rest
  cases f
  simp [and_comm]

/-- The length of each table, and that of each list of parameters, is a number of 64 bits.  Every
arena in the memory of a machine is so. -/
structure Arena.Fits (a : Arena) : Prop where
  exprs : a.exprs.size < 2 ^ 64
  operands : a.operands.size < 2 ^ 64
  stmts : a.stmts.size < 2 ^ 64
  phis : a.phis.size < 2 ^ 64
  functions : a.functions.size < 2 ^ 64
  params : ∀ f ∈ a.functions, f.params.length < 2 ^ 64

theorem decode_arena_iff {a : Arena} :
    decode bytes = .ok (a, rest) ↔ a.Fits ∧ bytes = a.toBytes ++ rest := by
  show (Arena.mk <$> decode <*> decode <*> decode <*> decode <*> decode) bytes = .ok (a, rest) ↔
    _ ∧ bytes = encode a.exprs ++ encode a.operands ++ encode a.stmts ++ encode a.phis ++
      encode a.functions ++ rest
  have hfunctions {bytes rest : List UInt8} {fs : Array Function} :
      decode bytes = .ok (fs, rest) ↔
        (fs.size < 2 ^ 64 ∧ ∀ f ∈ fs, f.params.length < 2 ^ 64) ∧ bytes = encode fs ++ rest :=
    decode_array_iff decode_function_iff
  cases a
  simp only [Decoder.seq_eq_ok_iff, Decoder.map_eq_ok_iff, decode_array_eq_ok_iff, hfunctions,
    Arena.mk.injEq, existsAndEq, and_true, and_assoc, List.append_assoc]
  constructor
  · rintro ⟨hexprs, rfl, hoperands, hstmts, hphis, hfunctions, hparams⟩
    exact ⟨⟨hexprs, hoperands, hstmts, hphis, hfunctions, hparams⟩, rfl⟩
  · rintro ⟨h, rfl⟩
    exact ⟨h.exprs, rfl, h.operands, h.stmts, h.phis, h.functions, h.params⟩

namespace Arena

theorem ofBytes?_eq_ok_iff {a : Arena} :
    ofBytes? bytes = .ok a ↔ ∃ rest, decode bytes = .ok (a, rest) := by
  simp only [ofBytes?]
  rcases (decode bytes : Except DecodeError (Arena × List UInt8)) with e | ⟨b, rest⟩
  · simp [Except.map]
  · simp [Except.map]

/-- Reading what was written gives the arena back, whatever comes after it.  Only an arena with a
length that does not go into 64 bits would not come back. -/
theorem ofBytes?_toBytes_append (a : Arena) (suffix : List UInt8) :
    ofBytes? (a.toBytes ++ suffix) = .ok a ↔ a.Fits := by
  rw [ofBytes?_eq_ok_iff]
  constructor
  · rintro ⟨rest, h⟩
    exact (decode_arena_iff.mp h).1
  · intro h
    exact ⟨suffix, decode_arena_iff.mpr ⟨h, rfl⟩⟩

/-- Whatever is read as an arena begins with the byte form of that arena, and just these bytes have
been taken off. -/
theorem toBytes_append_of_ofBytes? {a : Arena} (h : ofBytes? bytes = .ok a) :
    ∃ rest, decode bytes = .ok (a, rest) ∧ bytes = a.toBytes ++ rest := by
  obtain ⟨rest, hdecode⟩ := ofBytes?_eq_ok_iff.mp h
  exact ⟨rest, hdecode, (decode_arena_iff.mp hdecode).2⟩

/-- A function that reduces a list of one element, beginning from a truth value, and returns the
result. -/
def reduceProgram : Arena :=
  { empty with
    exprs := #[⟨.form (.untypedFn ⟨0⟩), ⟨3, 9⟩⟩, ⟨.form (.const (.bool true)), ⟨10, 14⟩⟩,
      ⟨.form (.reduce ⟨0⟩ (some ⟨1⟩) ⟨0, 1⟩), ⟨3, 15⟩⟩]
    operands := #[⟨1⟩]
    stmts := #[⟨.form (.ret ⟨2⟩), ⟨0, 300⟩⟩]
    functions := #[⟨⟨5⟩, .typed, [⟨6⟩], ⟨0, 1⟩, ⟨0, 300⟩⟩] }

/-- The byte form of `reduceProgram`. -/
def reduceProgramBytes : List UInt8 := [
  -- expressions
  3, 0, 0, 0, 0, 0, 0, 0,
  2, 0, 0, 0, 0, 0, 0, 0, 3, 0, 0, 0, 9, 0, 0, 0,
  1, 0, 0, 0, 2, 0, 0, 0, 1, 10, 0, 0, 0, 14, 0, 0, 0,
  27, 0, 0, 0, 0, 0, 0, 0, 1, 1, 0, 0, 0, 0, 0, 0, 0, 1, 0, 0, 0, 3, 0, 0, 0, 15, 0, 0, 0,
  -- operands
  1, 0, 0, 0, 0, 0, 0, 0,
  1, 0, 0, 0,
  -- statements
  1, 0, 0, 0, 0, 0, 0, 0,
  2, 0, 0, 0, 2, 0, 0, 0, 0, 0, 0, 0, 44, 1, 0, 0,
  -- entries of merge maps
  0, 0, 0, 0, 0, 0, 0, 0,
  -- functions
  1, 0, 0, 0, 0, 0, 0, 0,
  5, 0, 0, 0, 1, 0, 0, 0, 1, 0, 0, 0, 0, 0, 0, 0, 6, 0, 0, 0, 0, 0, 0, 0, 1, 0, 0, 0,
  0, 0, 0, 0, 44, 1, 0, 0]

theorem toBytes_reduceProgram : reduceProgram.toBytes = reduceProgramBytes := by decide

/-- The forms, the initial value and the nested lengths are read, and the byte behind is left. -/
theorem reduceProgramBytes_eq :
    ∃ rest, decode (reduceProgramBytes ++ [7]) = .ok (reduceProgram, rest) ∧
      reduceProgramBytes ++ [7] = reduceProgram.toBytes ++ rest :=
  toBytes_append_of_ofBytes? rfl

end Arena

end MergeForm
