import MergeForm.Proofs.ArenaBytes

/-! How many bytes decide what is read.  A decoder takes bytes off the front and looks at no others,
so what stands behind the bytes that it has taken has no say, be it in a value or in an error.  Only
where it comes to the end of the bytes it could go on if there were more. -/

namespace MergeForm

namespace Decoder

variable {α β : Type}

/-- Unless the bytes come to an end too early, more bytes behind them are left over and change
nothing else. -/
class Steady (d : Decoder α) : Prop where
  append_eq : ∀ bytes more, d bytes ≠ .error .endOfInput →
    d (bytes ++ more) = (d bytes).map fun (x, rest) => (x, rest ++ more)

instance (x : α) : (pure x : Decoder α).Steady := ⟨fun _ _ _ => rfl⟩

instance (e : DecodeError) : (fail e : Decoder α).Steady := ⟨fun _ _ _ => rfl⟩

instance : byte.Steady where
  append_eq
    | [], _, h => absurd rfl h
    | _ :: _, _, _ => rfl

instance (d : Decoder α) (next : α → Decoder β) [hd : d.Steady] [hnext : ∀ x, (next x).Steady] :
    (d >>= next).Steady where
  append_eq bytes more h := by
    simp only [bind, andThen] at h ⊢
    rcases hb : d bytes with e | ⟨x, rest⟩
    · have he : e ≠ .endOfInput := by simpa [hb] using h
      rw [hd.append_eq bytes more (by simpa [hb] using he), hb]
      rfl
    · simp only [hb] at h
      rw [hd.append_eq bytes more (by simp [hb]), hb]
      exact (hnext x).append_eq rest more h

instance (f : α → β) (d : Decoder α) [d.Steady] : (f <$> d).Steady :=
  inferInstanceAs (d >>= fun x => pure (f x)).Steady

instance (df : Decoder (α → β)) (d : Decoder α) [df.Steady] [d.Steady] : (df <*> d).Steady :=
  inferInstanceAs (df >>= fun f => f <$> d).Steady

instance (c : Prop) [Decidable c] (d d' : Decoder α) [d.Steady] [d'.Steady] :
    (if c then d else d').Steady := by
  split <;> infer_instance

theorem steady_number (count : Nat) : (number count).Steady := by
  induction count with
  | zero => exact inferInstanceAs (pure 0 : Decoder Nat).Steady
  | succ count ih =>
    exact inferInstanceAs
      (byte >>= fun low => number count >>= fun high => pure (low.toNat + 256 * high)).Steady

instance (count : Nat) : (number count).Steady := steady_number count

theorem steady_repeated (d : Decoder α) [d.Steady] (n : Nat) :
    ∀ before, (repeated d n before).Steady := by
  induction n with
  | zero => exact fun before => inferInstanceAs (pure before : Decoder (Array α)).Steady
  | succ n ih =>
    exact fun before => inferInstanceAs (d >>= fun x => repeated d n (before.push x)).Steady

instance (d : Decoder α) [d.Steady] (n : Nat) (before : Array α) :
    (repeated d n before).Steady := steady_repeated d n before

/-- All decoders of a list are steady. -/
class AllSteady (ds : List (Decoder α)) : Prop where
  of_mem : ∀ d ∈ ds, d.Steady

instance : AllSteady ([] : List (Decoder α)) := ⟨by simp⟩

instance (d : Decoder α) (ds : List (Decoder α)) [hd : d.Steady] [hds : AllSteady ds] :
    AllSteady (d :: ds) := ⟨List.forall_mem_cons.mpr ⟨hd, hds.of_mem⟩⟩

instance (ds ds' : List (Decoder α)) [hds : AllSteady ds] [hds' : AllSteady ds'] :
    AllSteady (ds ++ ds') := ⟨List.forall_mem_append.mpr ⟨hds.of_mem, hds'.of_mem⟩⟩

instance (f : α → β) (ds : List (Decoder α)) [hds : AllSteady ds] :
    AllSteady (ds.map fun d => f <$> d) where
  of_mem d hd := by
    obtain ⟨d', hd', rfl⟩ := List.mem_map.mp hd
    have := hds.of_mem d' hd'
    infer_instance

instance (xs : List α) : AllSteady (xs.map fun x => (pure x : Decoder α)) where
  of_mem d hd := by
    obtain ⟨x, -, rfl⟩ := List.mem_map.mp hd
    infer_instance

instance (ds : List (Decoder α)) [hds : AllSteady ds] : (choose ds).Steady := by
  have hpick (i : Nat) : (match ds[i]? with
      | some d => d
      | none => fail (.badVariant i ds.length)).Steady := by
    cases hd : ds[i]? with
    | none => infer_instance
    | some d => exact hds.of_mem d (List.mem_of_getElem? hd)
  exact inferInstanceAs (number 4 >>= fun i => match ds[i]? with
    | some d => d
    | none => fail (.badVariant i ds.length)).Steady

/-- Bytes that are a part of others, from the front on, come to an end too early if with all of them
a value is read and nothing is left. -/
theorem Steady.truncated {d : Decoder α} [hd : d.Steady] {bytes more : List UInt8} {x : α}
    (h : d (bytes ++ more) = .ok (x, [])) (hmore : more ≠ []) : d bytes = .error .endOfInput := by
  by_contra hend
  rw [hd.append_eq bytes more hend] at h
  rcases hb : d bytes with e | ⟨y, rest⟩
  · simp [hb, Except.map] at h
  · simp [hb, Except.map, hmore] at h

end Decoder

/-! ### Values -/

namespace Wire

open Decoder

instance : (decode : Decoder UInt32).Steady :=
  inferInstanceAs (Nat.toUInt32 <$> Decoder.number 4).Steady

instance : (decode : Decoder UInt64).Steady :=
  inferInstanceAs (Nat.toUInt64 <$> Decoder.number 8).Steady

instance : (decode : Decoder Int64).Steady :=
  inferInstanceAs (UInt64.toInt64 <$> decode).Steady

instance : (decode : Decoder Bool).Steady :=
  inferInstanceAs (byte >>= fun b => if b = 0 then pure false else if b = 1 then pure true
    else fail (.badBool b)).Steady

instance {α : Type} [Wire α] [(decode : Decoder α).Steady] : (decode : Decoder (Option α)).Steady :=
  inferInstanceAs (byte >>= fun b => if b = 0 then pure none else if b = 1 then some <$> decode
    else fail (.badOption b)).Steady

instance {α : Type} [Wire α] [(decode : Decoder α).Steady] : (decode : Decoder (Array α)).Steady :=
  inferInstanceAs (Decoder.number 8 >>= fun n => repeated decode n #[]).Steady

instance {α : Type} [Wire α] [(decode : Decoder α).Steady] : (decode : Decoder (List α)).Steady :=
  inferInstanceAs (Array.toList <$> decode).Steady

end Wire

open Wire

instance {f : Family} : (decode : Decoder (Id f)).Steady :=
  inferInstanceAs (Id.mk <$> decode).Steady

instance {f : Family} : (decode : Decoder (Slots f)).Steady :=
  inferInstanceAs (Slots.mk <$> decode <*> decode).Steady

instance : (decode : Decoder Name).Steady := inferInstanceAs (Name.mk <$> decode).Steady

instance : (decode : Decoder Span).Steady := inferInstanceAs (Span.mk <$> decode <*> decode).Steady

instance : (decode : Decoder Prim).Steady :=
  inferInstanceAs (Decoder.choose (Prim.all.map fun p => pure p)).Steady

instance : (decode : Decoder Typing).Steady :=
  inferInstanceAs (Decoder.choose [pure Typing.untyped, pure Typing.typed]).Steady

instance : (decode : Decoder Const).Steady :=
  inferInstanceAs (Decoder.choose [Const.int <$> decode, Const.float <$> decode,
    Const.bool <$> decode, pure Const.none]).Steady

/-! ### Nodes -/

instance : Decoder.AllSteady Expr.formDecoders where
  -- The list is too long for one search, so each decoder has one of its own.
  of_mem := by
    simp only [Expr.formDecoders, List.forall_mem_cons, List.not_mem_nil, false_implies,
      implies_true, and_true]
    and_intros <;> infer_instance

instance : Decoder.AllSteady Stmt.formDecoders := by
  unfold Stmt.formDecoders
  infer_instance

instance : (decode : Decoder Expr.Kind).Steady :=
  inferInstanceAs (Decoder.choose
    (Expr.formDecoders.map (fun d => Expr.Kind.form <$> d) ++ [pure Expr.Kind.error])).Steady

instance : (decode : Decoder Stmt.Kind).Steady :=
  inferInstanceAs (Decoder.choose
    (Stmt.formDecoders.map (fun d => Stmt.Kind.form <$> d) ++ [pure Stmt.Kind.error])).Steady

instance : (decode : Decoder Expr).Steady := inferInstanceAs (Expr.mk <$> decode <*> decode).Steady

instance : (decode : Decoder Stmt).Steady := inferInstanceAs (Stmt.mk <$> decode <*> decode).Steady

instance : (decode : Decoder Phi).Steady :=
  inferInstanceAs (Phi.mk <$> decode <*> decode <*> decode).Steady

instance : (decode : Decoder Function).Steady :=
  inferInstanceAs (Function.mk <$> decode <*> decode <*> decode <*> decode <*> decode).Steady

instance : (decode : Decoder Arena).Steady :=
  inferInstanceAs (Arena.mk <$> decode <*> decode <*> decode <*> decode <*> decode).Steady

/-! ### Arenas -/

namespace Arena

theorem ofBytes?_append {bytes : List UInt8} (more : List UInt8)
    (h : ofBytes? bytes ≠ .error .endOfInput) : ofBytes? (bytes ++ more) = ofBytes? bytes := by
  have hdecode : (decode bytes : Except DecodeError (Arena × List UInt8)) ≠ .error .endOfInput := by
    intro hend
    exact h (by rw [ofBytes?, hend]; rfl)
  rw [ofBytes?, ofBytes?, Decoder.Steady.append_eq bytes more hdecode]
  cases (decode bytes : Except DecodeError (Arena × List UInt8)) <;> rfl

theorem ofBytes?_of_prefix {a : Arena} (ha : a.Fits) {bytes : List UInt8}
    (h : bytes <+: a.toBytes) (hne : bytes ≠ a.toBytes) : ofBytes? bytes = .error .endOfInput := by
  obtain ⟨more, hmore⟩ := h
  have hfull : decode (bytes ++ more) = .ok (a, []) := by
    rw [hmore]
    exact decode_arena_iff.mpr ⟨ha, (List.append_nil _).symm⟩
  have hend : decode bytes = .error .endOfInput :=
    Decoder.Steady.truncated hfull fun hnil => hne (by rw [← hmore, hnil, List.append_nil])
  rw [ofBytes?, hend]
  rfl

/-- Of the byte form of an arena nothing may be missing at the end, and if something is, that is the
error.  But for that error all that is read, be it an arena or another error, is decided by the
bytes that are there, whatever comes after them. -/
theorem ofBytes?_decided :
    (∀ a : Arena, a.Fits → ∀ bytes, bytes <+: a.toBytes → bytes ≠ a.toBytes →
      ofBytes? bytes = .error .endOfInput) ∧
    (∀ bytes more a, ofBytes? bytes = .ok a → ofBytes? (bytes ++ more) = .ok a) ∧
    ∀ bytes more e, ofBytes? bytes = .error e → e ≠ .endOfInput →
      ofBytes? (bytes ++ more) = .error e := by
  refine ⟨fun a ha bytes h hne => ofBytes?_of_prefix ha h hne, fun bytes more a h => ?_,
    fun bytes more e h he => ?_⟩
  · rw [ofBytes?_append more (by simp [h]), h]
  · rw [ofBytes?_append more (by simpa [h] using he), h]

/-- Bytes cut within the initial value of an expression, an arena with a byte more behind it, and
three errors that come early: tags that there are not for a truth value, for an initial value and
for a form. -/
theorem reduceProgramBytes_decided :
    ofBytes? (reduceProgramBytes.take 51) = .error .endOfInput ∧
      ofBytes? (reduceProgramBytes ++ [1]) = .ok reduceProgram ∧
      ofBytes? (reduceProgramBytes.take 32 ++ [2] ++ [1]) = .error (.badBool 2) ∧
      ofBytes? (reduceProgramBytes.take 49 ++ [2] ++ [1]) = .error (.badOption 2) ∧
      ofBytes? (reduceProgramBytes.take 41 ++ [33, 0, 0, 0] ++ [1]) =
        .error (.badVariant 33 33) := by
  obtain ⟨hshort, hlonger, herror⟩ := ofBytes?_decided
  have hfits : reduceProgram.Fits := by
    constructor <;> simp [reduceProgram, empty]
  refine ⟨hshort reduceProgram hfits _ ?_ ?_, hlonger _ [1] _ rfl, herror _ [1] _ rfl (by decide),
    herror _ [1] _ rfl (by decide), herror _ [1] _ rfl (by decide)⟩
  · rw [toBytes_reduceProgram]
    exact List.take_prefix _ _
  · rw [toBytes_reduceProgram]
    decide

end Arena

end MergeForm
