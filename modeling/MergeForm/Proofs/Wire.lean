import Mathlib.Algebra.Ring.Nat
import Mathlib.Tactic.Simproc.ExistsAndEq
import MergeForm.Bytes.Wire

/-! What decoders accept.  A decoder of a value with a byte form accepts just the bytes that begin
with the byte form of some value, gives that value and leaves the rest.  Both ways are stated at
once, so that reading back what was written and writing again what was read come from one law for
each type. -/

namespace MergeForm

namespace Decoder

variable {α β : Type} {bytes rest : List UInt8}

@[simp] theorem pure_eq_ok_iff {x y : α} :
    (pure x : Decoder α) bytes = .ok (y, rest) ↔ x = y ∧ bytes = rest := by
  simp [pure, give]

@[simp] theorem bind_eq_ok_iff {d : Decoder α} {next : α → Decoder β} {y : β} :
    (d >>= next) bytes = .ok (y, rest) ↔
      ∃ x mid, d bytes = .ok (x, mid) ∧ next x mid = .ok (y, rest) := by
  simp only [bind, andThen]
  rcases d bytes with e | ⟨x, mid⟩
  · simp
  · constructor
    · exact fun h => ⟨x, mid, rfl, h⟩
    · rintro ⟨_, _, ⟨rfl, rfl⟩, h⟩
      exact h

@[simp] theorem map_eq_ok_iff {f : α → β} {d : Decoder α} {y : β} :
    (f <$> d) bytes = .ok (y, rest) ↔ ∃ x, d bytes = .ok (x, rest) ∧ f x = y := by
  show (d >>= fun x => pure (f x)) bytes = .ok (y, rest) ↔ _
  simp only [bind_eq_ok_iff, pure_eq_ok_iff]
  constructor
  · rintro ⟨x, mid, hd, rfl, rfl⟩
    exact ⟨x, hd, rfl⟩
  · rintro ⟨x, hd, rfl⟩
    exact ⟨x, rest, hd, rfl, rfl⟩

@[simp] theorem seq_eq_ok_iff {df : Decoder (α → β)} {d : Decoder α} {y : β} :
    (df <*> d) bytes = .ok (y, rest) ↔
      ∃ f mid x, df bytes = .ok (f, mid) ∧ d mid = .ok (x, rest) ∧ f x = y := by
  show (df >>= fun f => f <$> d) bytes = .ok (y, rest) ↔ _
  simp only [bind_eq_ok_iff, map_eq_ok_iff]
  constructor
  · rintro ⟨f, mid, hf, x, hd, rfl⟩
    exact ⟨f, mid, x, hf, hd, rfl⟩
  · rintro ⟨f, mid, x, hf, hd, rfl⟩
    exact ⟨f, mid, hf, x, hd, rfl⟩

@[simp] theorem fail_ne_ok {e : DecodeError} {x : α} :
    (fail e : Decoder α) bytes ≠ .ok (x, rest) := by
  simp [fail]

@[simp] theorem byte_eq_ok_iff {b : UInt8} :
    byte bytes = .ok (b, rest) ↔ bytes = b :: rest := by
  cases bytes with
  | nil => simp [byte]
  | cons c tail => simp [byte]

/-- A number of a given width is written in one way. -/
@[simp] theorem number_eq_ok_iff {count n : Nat} :
    number count bytes = .ok (n, rest) ↔ n < 256 ^ count ∧ bytes = Wire.number count n ++ rest := by
  induction count generalizing n bytes rest with
  | zero =>
    show give 0 bytes = .ok (n, rest) ↔ _
    simp only [give, Wire.number, Except.ok.injEq, Prod.mk.injEq, List.nil_append]
    rw [show n < 256 ^ 0 ↔ 0 = n by omega]
  | succ count ih =>
    simp only [number, bind_eq_ok_iff, byte_eq_ok_iff, ih, pure_eq_ok_iff, Wire.number]
    constructor
    · rintro ⟨low, mid, rfl, high, mid', ⟨hlt, rfl⟩, rfl, rfl⟩
      have hlow := low.toNat_lt
      have hbyte : (low.toNat + 256 * high).toUInt8 = low := by
        apply UInt8.toNat_inj.mp
        rw [Nat.toUInt8_eq, UInt8.toNat_ofNat']
        omega
      have hdiv : (low.toNat + 256 * high) / 256 = high := by omega
      rw [hbyte, hdiv, Nat.pow_succ]
      exact ⟨by omega, rfl⟩
    · rintro ⟨hlt, rfl⟩
      rw [Nat.pow_succ] at hlt
      refine ⟨n.toUInt8, _, rfl, n / 256, rest, ⟨by omega, rfl⟩, ?_, rfl⟩
      rw [Nat.toUInt8_eq, UInt8.toNat_ofNat']
      omega

/-- An alternative is read by the decoder that its number picks. -/
theorem choose_eq_ok_iff {ds : List (Decoder α)} {x : α} :
    choose ds bytes = .ok (x, rest) ↔
      ∃ i d tail, ds[i]? = some d ∧ i < 256 ^ 4 ∧ bytes = Wire.variant i tail ∧
        d tail = .ok (x, rest) := by
  simp only [choose, bind_eq_ok_iff, number_eq_ok_iff, Wire.variant]
  constructor
  · rintro ⟨i, tail, ⟨hi, rfl⟩, h⟩
    cases hd : ds[i]? with
    | none => simp [hd] at h
    | some d => exact ⟨i, d, tail, hd, hi, rfl, by simpa [hd] using h⟩
  · rintro ⟨i, d, tail, hd, hi, rfl, h⟩
    exact ⟨i, tail, ⟨hi, rfl⟩, by simpa [hd] using h⟩

/-- As many values as asked for, each with its byte form, one after the other. -/
theorem repeated_eq_ok_iff {d : Decoder α} {fits : α → Prop} {encode : α → List UInt8}
    (hd : ∀ {x bytes rest}, d bytes = .ok (x, rest) ↔ fits x ∧ bytes = encode x ++ rest)
    {n : Nat} {before ys : Array α} :
    repeated d n before bytes = .ok (ys, rest) ↔
      ∃ xs : List α, xs.length = n ∧ ys = before ++ xs.toArray ∧ (∀ x ∈ xs, fits x) ∧
        bytes = xs.flatMap encode ++ rest := by
  induction n generalizing before bytes with
  | zero =>
    simp only [repeated, give, List.length_eq_zero_iff]
    constructor
    · intro h
      obtain ⟨rfl, rfl⟩ : before = ys ∧ bytes = rest := by simpa using h
      exact ⟨[], rfl, by simp, by simp, rfl⟩
    · rintro ⟨xs, rfl, rfl, -, rfl⟩
      simp
  | succ n ih =>
    simp only [repeated]
    constructor
    · intro h
      rcases hx : d bytes with e | ⟨x, mid⟩
      · simp [hx] at h
      · simp only [hx] at h
        obtain ⟨hfits, rfl⟩ := hd.mp hx
        obtain ⟨xs, rfl, rfl, hall, rfl⟩ := ih.mp h
        refine ⟨x :: xs, rfl, ?_, ?_, ?_⟩
        · simp
        · simpa using ⟨hfits, hall⟩
        · simp
    · rintro ⟨xs, hlen, rfl, hall, rfl⟩
      cases xs with
      | nil => simp at hlen
      | cons x xs =>
        have hx : d ((x :: xs).flatMap encode ++ rest) = .ok (x, xs.flatMap encode ++ rest) :=
          hd.mpr ⟨hall x (by simp), by simp⟩
        simp only [hx]
        refine ih.mpr ⟨xs, by simpa using hlen, by simp, fun y hy => hall y (by simp [hy]), rfl⟩

end Decoder

namespace Wire

/-- The byte form of a type is exact: a value is read off the bytes that begin with its byte form,
and off no others. -/
class Exact (α : Type) [Wire α] : Prop where
  decode_iff {x : α} {bytes rest : List UInt8} :
    decode bytes = .ok (x, rest) ↔ bytes = encode x ++ rest

variable {α β : Type} {bytes rest : List UInt8}

@[simp] theorem decode_eq_ok_iff [Wire α] [Exact α] {x : α} :
    decode bytes = .ok (x, rest) ↔ bytes = encode x ++ rest := Exact.decode_iff

instance : Exact UInt32 where
  decode_iff {n bytes rest} := by
    show (Nat.toUInt32 <$> Decoder.number 4) bytes = .ok (n, rest) ↔
      bytes = number 4 n.toNat ++ rest
    simp only [Decoder.map_eq_ok_iff, Decoder.number_eq_ok_iff]
    constructor
    · rintro ⟨m, ⟨hlt, rfl⟩, rfl⟩
      have hm : m.toUInt32.toNat = m := by
        rw [Nat.toUInt32_eq, UInt32.toNat_ofNat']
        omega
      rw [hm]
    · rintro rfl
      exact ⟨n.toNat, ⟨n.toNat_lt, rfl⟩, UInt32.ofNat_toNat⟩

instance : Exact UInt64 where
  decode_iff {n bytes rest} := by
    show (Nat.toUInt64 <$> Decoder.number 8) bytes = .ok (n, rest) ↔
      bytes = number 8 n.toNat ++ rest
    simp only [Decoder.map_eq_ok_iff, Decoder.number_eq_ok_iff]
    constructor
    · rintro ⟨m, ⟨hlt, rfl⟩, rfl⟩
      have hm : m.toUInt64.toNat = m := by
        rw [Nat.toUInt64_eq, UInt64.toNat_ofNat']
        omega
      rw [hm]
    · rintro rfl
      exact ⟨n.toNat, ⟨n.toNat_lt, rfl⟩, UInt64.ofNat_toNat⟩

instance : Exact Int64 where
  decode_iff {n bytes rest} := by
    show (UInt64.toInt64 <$> decode) bytes = .ok (n, rest) ↔ bytes = encode n.toUInt64 ++ rest
    simp only [Decoder.map_eq_ok_iff, decode_eq_ok_iff]
    constructor
    · rintro ⟨m, rfl, rfl⟩
      rw [UInt64.toUInt64_toInt64]
    · rintro rfl
      exact ⟨n.toUInt64, rfl, Int64.toInt64_toUInt64 n⟩

instance : Exact Bool where
  decode_iff {b bytes rest} := by
    show (Decoder.byte >>= fun c => if c = 0 then pure false else if c = 1 then pure true
      else Decoder.fail (.badBool c)) bytes = .ok (b, rest) ↔ bytes = [if b then 1 else 0] ++ rest
    simp only [Decoder.bind_eq_ok_iff, Decoder.byte_eq_ok_iff]
    constructor
    · rintro ⟨c, mid, rfl, h⟩
      by_cases h0 : c = 0
      · rw [if_pos h0, Decoder.pure_eq_ok_iff] at h
        simp [← h.1, h0, h.2]
      rw [if_neg h0] at h
      by_cases h1 : c = 1
      · rw [if_pos h1, Decoder.pure_eq_ok_iff] at h
        simp [← h.1, h1, h.2]
      · rw [if_neg h1] at h
        exact absurd h Decoder.fail_ne_ok
    · rintro rfl
      cases b with
      | false => exact ⟨0, rest, rfl, rfl⟩
      | true => exact ⟨1, rest, rfl, rfl⟩

instance [Wire α] [Exact α] : Exact (Option α) where
  decode_iff {x? bytes rest} := by
    show (Decoder.byte >>= fun c => if c = 0 then pure none else if c = 1 then some <$> decode
      else Decoder.fail (.badOption c)) bytes = .ok (x?, rest) ↔ bytes = encode x? ++ rest
    simp only [Decoder.bind_eq_ok_iff, Decoder.byte_eq_ok_iff]
    constructor
    · rintro ⟨c, mid, rfl, h⟩
      by_cases h0 : c = 0
      · rw [if_pos h0, Decoder.pure_eq_ok_iff] at h
        simp [← h.1, h0, h.2, encode]
      rw [if_neg h0] at h
      by_cases h1 : c = 1
      · rw [if_pos h1, Decoder.map_eq_ok_iff] at h
        obtain ⟨x, hx, rfl⟩ := h
        rw [decode_eq_ok_iff.mp hx, h1]
        rfl
      · rw [if_neg h1] at h
        exact absurd h Decoder.fail_ne_ok
    · rintro rfl
      cases x? with
      | none => exact ⟨0, rest, rfl, rfl⟩
      | some x =>
        have hx : (some <$> decode : Decoder (Option α)) (encode x ++ rest) =
            .ok (some x, rest) := by simp
        exact ⟨1, encode x ++ rest, rfl, hx⟩

/-! ### Tables -/

/-- The length of a table has to go into its eight bytes, and its entries have to be ones that are
read back. -/
theorem decode_array_iff [Wire α] {fits : α → Prop}
    (h : ∀ {x : α} {bytes rest}, decode bytes = .ok (x, rest) ↔ fits x ∧ bytes = encode x ++ rest)
    {xs : Array α} :
    decode bytes = .ok (xs, rest) ↔
      (xs.size < 2 ^ 64 ∧ ∀ x ∈ xs, fits x) ∧ bytes = encode xs ++ rest := by
  show (Decoder.number 8 >>= fun n => Decoder.repeated decode n #[]) bytes = .ok (xs, rest) ↔
    _ ∧ bytes = number 8 xs.size ++ xs.toList.flatMap encode ++ rest
  simp only [Decoder.bind_eq_ok_iff, Decoder.number_eq_ok_iff, Decoder.repeated_eq_ok_iff h]
  constructor
  · rintro ⟨n, mid, ⟨hlt, rfl⟩, ys, rfl, rfl, hall, rfl⟩
    simpa using ⟨hlt, hall⟩
  · rintro ⟨⟨hlt, hall⟩, rfl⟩
    exact ⟨xs.size, _, ⟨hlt, List.append_assoc ..⟩, xs.toList, by simp, by simp,
      by simpa using hall, rfl⟩

@[simp] theorem decode_array_eq_ok_iff [Wire α] [Exact α] {xs : Array α} :
    decode bytes = .ok (xs, rest) ↔ xs.size < 2 ^ 64 ∧ bytes = encode xs ++ rest := by
  have h {x : α} {bytes rest : List UInt8} :
      decode bytes = .ok (x, rest) ↔ True ∧ bytes = encode x ++ rest := by simp
  simpa using decode_array_iff h

@[simp] theorem decode_list_eq_ok_iff [Wire α] [Exact α] {xs : List α} :
    decode bytes = .ok (xs, rest) ↔ xs.length < 2 ^ 64 ∧ bytes = encode xs ++ rest := by
  show (Array.toList <$> decode) bytes = .ok (xs, rest) ↔ _ ∧ bytes = encode xs.toArray ++ rest
  simp only [Decoder.map_eq_ok_iff, decode_array_eq_ok_iff]
  constructor
  · rintro ⟨ys, ⟨hlt, rfl⟩, rfl⟩
    exact ⟨hlt, rfl⟩
  · rintro ⟨hlt, rfl⟩
    exact ⟨xs.toArray, ⟨hlt, rfl⟩, rfl⟩

/-! ### Alternatives -/

theorem variant_append (i : Nat) (parts rest : List UInt8) :
    variant i parts ++ rest = variant i (parts ++ rest) := List.append_assoc ..

/-- What each decoder reads is written with the number of the decoder, and every value has a decoder
that reads it. -/
structure Alternatives (ds : List (Decoder α)) (write : α → List UInt8) : Prop where
  few : ds.length < 256 ^ 4
  sound : ∀ p ∈ ds.zipIdx, ∀ x tail rest,
    p.1 tail = .ok (x, rest) → variant p.2 tail = write x ++ rest
  complete : ∀ x, ∃ i front d, write x = variant i front ∧ ds[i]? = some d ∧
    ∀ rest, d (front ++ rest) = .ok (x, rest)

namespace Alternatives

variable {ds : List (Decoder α)} {write : α → List UInt8}

theorem choose_iff (h : Alternatives ds write) {x : α} :
    Decoder.choose ds bytes = .ok (x, rest) ↔ bytes = write x ++ rest := by
  rw [Decoder.choose_eq_ok_iff]
  constructor
  · rintro ⟨i, d, tail, hd, -, rfl, hx⟩
    exact h.sound (d, i) (List.mk_mem_zipIdx_iff_getElem?.mpr hd) x tail rest hx
  · rintro rfl
    obtain ⟨i, front, d, hwrite, hd, hread⟩ := h.complete x
    obtain ⟨hi, -⟩ := List.getElem?_eq_some_iff.mp hd
    refine ⟨i, d, front ++ rest, hd, Nat.lt_trans hi h.few, ?_, hread rest⟩
    rw [hwrite, variant_append]

/-- A placeholder may stand behind all alternatives. -/
theorem placeholder (h : Alternatives ds write) {form : α → β} {error : β}
    {writeAll : β → List UInt8} (hlen : ds.length + 1 < 256 ^ 4)
    (hform : ∀ x, writeAll (form x) = write x) (herror : writeAll error = variant ds.length [])
    (hall : ∀ y, y = error ∨ ∃ x, y = form x) :
    Alternatives (ds.map (fun d => form <$> d) ++ [pure error]) writeAll where
  few := by simpa using hlen
  sound := by
    rintro ⟨d, i⟩ hp y tail rest hy
    have hd := List.mk_mem_zipIdx_iff_getElem?.mp hp
    by_cases hi : i < ds.length
    · rw [List.getElem?_append_left (by simpa using hi), List.getElem?_map] at hd
      obtain ⟨d', hd', rfl⟩ := Option.map_eq_some_iff.mp hd
      obtain ⟨x, hx, rfl⟩ := Decoder.map_eq_ok_iff.mp hy
      rw [hform]
      exact h.sound (d', i) (List.mk_mem_zipIdx_iff_getElem?.mpr hd') x tail rest hx
    · rw [List.getElem?_append_right (by simpa using hi), List.getElem?_singleton] at hd
      obtain ⟨hzero, rfl⟩ : i - ds.length = 0 ∧ pure error = d := by simpa using hd
      obtain ⟨rfl, rfl⟩ := Decoder.pure_eq_ok_iff.mp hy
      rw [herror, variant_append, List.nil_append, show i = ds.length by omega]
  complete := by
    intro y
    rcases hall y with rfl | ⟨x, rfl⟩
    · exact ⟨ds.length, [], pure y, herror, by simp, fun rest => by simp⟩
    · obtain ⟨i, front, d, hwrite, hd, hread⟩ := h.complete x
      obtain ⟨hi, -⟩ := List.getElem?_eq_some_iff.mp hd
      refine ⟨i, front, form <$> d, (hform x).trans hwrite, ?_, fun rest => ?_⟩
      · rw [List.getElem?_append_left (by simpa using hi), List.getElem?_map, hd, Option.map_some]
      · exact Decoder.map_eq_ok_iff.mpr ⟨x, hread rest, rfl⟩

end Alternatives

end Wire

end MergeForm
