import MergeForm.Text

/-! What the shapes of the text form give away.  Two texts that are built in the same way, each with
something behind it, are compared part by part from the left: a word ends where the first character
comes that is no letter and no digit, and every part is followed by such a character.  From one law
for each shape it follows what two values have in common if their texts agree. -/

namespace MergeForm.Text

/-! ### Where a word ends -/

/-- The text does not begin with a letter or a digit: a word in front of it ends there. -/
def Breaks (s : List Char) : Prop := ∀ c ∈ s.head?, c.isAlphanum = false

instance (s : List Char) : Decidable (Breaks s) :=
  decidable_of_iff (s.head?.any Char.isAlphanum = false) (by cases s <;> simp [Breaks])

theorem breaks_nil : Breaks [] := by simp [Breaks]

theorem Breaks.append {s t : List Char} (hs : Breaks s) (ht : Breaks t) : Breaks (s ++ t) := by
  cases s with
  | nil => exact ht
  | cons c s => exact hs

theorem Breaks.of_append {s t : List Char} (h : Breaks (s ++ t)) : Breaks s := by
  cases s with
  | nil => exact breaks_nil
  | cons c s => exact h

/-- Letters and digits only. -/
def Word (x : String) : Prop := ∀ c ∈ x.toList, c.isAlphanum = true

instance (x : String) : Decidable (Word x) :=
  decidable_of_iff (x.toList.all Char.isAlphanum = true) List.all_eq_true

theorem word_nat (n : Nat) : Word (nat n) := by
  intro c hc
  rw [nat, Nat.toList_repr] at hc
  have hdigit := Nat.isDigit_of_mem_toDigits (by decide) (by decide) hc
  simp [Char.isAlphanum, hdigit]

/-- The word comes back as the letters and digits up to the first other character. -/
theorem Word.takeWhile_append {x : String} {s : List Char} (hx : Word x) (hs : Breaks s) :
    (x.toList ++ s).takeWhile Char.isAlphanum = x.toList := by
  have hstop : s.takeWhile Char.isAlphanum = [] := by
    cases s with
    | nil => rfl
    | cons c s => simp [hs c rfl]
  rw [List.takeWhile_append_of_pos hx, hstop, List.append_nil]

/-! ### Texts that agree -/

/-- If `x` and `y` agree together with what stands behind them, where no word goes on, then `q` holds
and what stands behind them agrees by itself. -/
def Tells (x y : String) (q : Prop) : Prop :=
  ∀ s t, Breaks s → Breaks t → x.toList ++ s = y.toList ++ t → q ∧ s = t

variable {x y x' y' z : String} {p q : Prop}

namespace Tells

theorem of_eq (h : Tells x y q) (heq : x = y) : q :=
  (h [] [] breaks_nil breaks_nil (by rw [heq])).1

theorem self (h : q) : Tells x x q :=
  fun _ _ _ _ heq => ⟨h, List.append_cancel_left heq⟩

theorem symm (h : Tells x y q) : Tells y x q := by
  intro s t hs ht heq
  obtain ⟨hq, rfl⟩ := h t s ht hs heq.symm
  exact ⟨hq, rfl⟩

theorem imp (h : Tells x y p) (hpq : p → q) : Tells x y q := by
  intro s t hs ht heq
  obtain ⟨hp, hst⟩ := h s t hs ht heq
  exact ⟨hpq hp, hst⟩

/-- What comes after two texts is compared once these are known to agree. -/
theorem bind (h : Tells x y p) (hx : Breaks x'.toList) (hy : Breaks y'.toList)
    (h' : p → Tells x' y' q) : Tells (x ++ x') (y ++ y') q := by
  intro s t hs ht heq
  simp only [String.toList_append, List.append_assoc] at heq
  obtain ⟨hp, hrest⟩ := h _ _ (hx.append hs) (hy.append ht) heq
  exact h' hp s t hs ht hrest

theorem before (h : Tells x y q) (z : String) : Tells (z ++ x) (z ++ y) q := by
  intro s t hs ht heq
  simp only [String.toList_append, List.append_assoc] at heq
  exact h s t hs ht (List.append_cancel_left heq)

theorem after (h : Tells x y q) (hz : Breaks z.toList) : Tells (x ++ z) (y ++ z) q :=
  h.bind hz hz .self

end Tells

theorem Word.tells (hx : Word x) (hy : Word y) : Tells x y (x = y) := by
  intro s t hs ht heq
  have hword : x.toList = y.toList := by
    rw [← hx.takeWhile_append hs, heq, hy.takeWhile_append ht]
  rw [hword] at heq
  exact ⟨String.toList_inj.mp hword, List.append_cancel_left heq⟩

theorem nat_inj {m n : Nat} (h : nat m = nat n) : m = n := by
  have hdigits : Nat.toDigits 10 m = Nat.toDigits 10 n := by
    simpa [nat] using congrArg String.toList h
  calc
    m = Nat.ofDigitChars 10 (Nat.toDigits 10 m) 0 := Nat.ofDigitChars_ten_toDigits.symm
    _ = Nat.ofDigitChars 10 (Nat.toDigits 10 n) 0 := by rw [hdigits]
    _ = n := Nat.ofDigitChars_ten_toDigits

theorem nat_tells (m n : Nat) : Tells (nat m) (nat n) (m = n) :=
  ((word_nat m).tells (word_nat n)).imp nat_inj

theorem word_tells (m n : UInt32) : Tells (word m) (word n) (m = n) :=
  (nat_tells m.toNat n.toNat).imp UInt32.toNat_inj.mp

theorem interval_tells (a b c d : Nat) :
    Tells (interval a b) (interval c d) (a = c ∧ b = d) := by
  simp only [interval, String.append_assoc]
  refine (nat_tells a c).bind (by simp [Breaks]) (by simp [Breaks]) fun hfirst => ?_
  exact ((nat_tells b d).before "..").imp fun hlast => ⟨hfirst, hlast⟩

theorem bool_tells (b c : Bool) : Tells (bool b) (bool c) (b = c) := by
  have hword (b : Bool) : Word (bool b) := by cases b <;> decide
  refine ((hword b).tells (hword c)).imp ?_
  cases b <;> cases c <;> decide

/-! ### Texts with a word in front -/

/-- The text is the word `w`, or begins with it and then goes on with some other character. -/
structure Headed (w x : String) : Prop where
  word : Word w
  rest : ∃ s, Breaks s ∧ x.toList = w.toList ++ s

theorem Word.headed (h : Word x) : Headed x x := ⟨h, [], breaks_nil, by simp⟩

theorem Headed.append {w : String} (h : Headed w x) (hy : Breaks y.toList) : Headed w (x ++ y) := by
  obtain ⟨hw, s, hs, hx⟩ := h
  exact ⟨hw, s ++ y.toList, hs.append hy, by simp [hx]⟩

theorem Word.headed_wrap {head : String} (h : Word head) (body : String) :
    Headed head (wrap head body) := by
  rw [wrap, String.append_assoc, String.append_assoc]
  exact h.headed.append (by simp [Breaks])

theorem Word.headed_record {name : String} (h : Word name) (fields : List (String × String)) :
    Headed name (record name fields) := by
  rw [record, String.append_assoc, String.append_assoc]
  exact h.headed.append (by simp [Breaks])

/-- Only texts with the same word in front have to be compared any further. -/
theorem Headed.tells {v w : String} (hx : Headed v x) (hy : Headed w y) (h : v = w → Tells x y q) :
    Tells x y q := by
  intro s t hs ht heq
  obtain ⟨hv, r, hr, hxr⟩ := hx
  obtain ⟨hw, r', hr', hyr⟩ := hy
  have hwords : v.toList ++ (r ++ s) = w.toList ++ (r' ++ t) := by
    simpa [hxr, hyr] using heq
  obtain ⟨hvw, -⟩ := hv.tells hw _ _ (hr.append hs) (hr'.append ht) hwords
  exact h hvw s t hs ht heq

theorem Headed.tells_of_ne {v w : String} (hx : Headed v x) (hy : Headed w y) (h : v ≠ w) :
    Tells x y q :=
  hx.tells hy fun hvw => absurd hvw h

theorem wrap_tells {v w : String} (hhead : v = w) (h : Tells x y q) :
    Tells (wrap v x) (wrap w y) q := by
  subst hhead
  exact (h.before (v ++ "(")).after (by decide)

theorem int_tells (m n : Int) : Tells (int m) (int n) (m = n) := by
  have hminus (k : Nat) : Headed "" ("-" ++ nat (k + 1)) :=
    ⟨by decide, ("-" ++ nat (k + 1)).toList, by simp [Breaks], rfl⟩
  have hne (k : Nat) : nat k ≠ "" := by
    intro h
    have hdigits : Nat.toDigits 10 k = [] := by simpa [nat] using congrArg String.toList h
    exact Nat.toDigits_ne_nil hdigits
  cases m with
  | ofNat m =>
    cases n with
    | ofNat n => exact (nat_tells m n).imp (congrArg Int.ofNat)
    | negSucc n => exact (word_nat m).headed.tells_of_ne (hminus n) (hne m)
  | negSucc m =>
    cases n with
    | ofNat n => exact ((word_nat n).headed.tells_of_ne (hminus m) (hne n)).symm
    | negSucc n =>
      refine ((nat_tells (m + 1) (n + 1)).before "-").imp fun h => ?_
      rw [Nat.succ.inj h]

theorem option_tells {b c : Option String} (hnone : b = none → c = none → q)
    (hsome : ∀ x ∈ b, ∀ y ∈ c, Tells x y q) : Tells (option b) (option c) q := by
  have hn : Headed "None" (option none) := (show Word "None" by decide).headed
  have hs (x : String) : Headed "Some" (option (some x)) := Word.headed_wrap (by decide) x
  cases b with
  | none =>
    cases c with
    | none => exact .self (hnone rfl rfl)
    | some y => exact hn.tells_of_ne (hs y) (by decide)
  | some x =>
    cases c with
    | none => exact (hs x).tells_of_ne hn (by decide)
    | some y => exact wrap_tells rfl (hsome x rfl y rfl)

/-! ### Lists and records -/

/-- The text begins with a letter or a digit. -/
def Opens (x : String) : Prop := ¬Breaks x.toList

theorem Headed.opens {w : String} (h : Headed w x) (hw : w ≠ "") : Opens x := by
  obtain ⟨hword, s, -, hx⟩ := h
  intro hbreaks
  rw [hx] at hbreaks
  cases hlist : w.toList with
  | nil => exact hw (String.toList_eq_nil_iff.mp hlist)
  | cons c r =>
    have hc : c.isAlphanum = true := hword c (by simp [hlist])
    have hc' : c.isAlphanum = false := hbreaks c (by simp [hlist])
    simp [hc] at hc'

theorem Opens.append (hx : Opens x) (y : String) : Opens (x ++ y) := by
  intro h
  rw [String.toList_append] at h
  exact hx h.of_append

/-- Items that stand behind another one. -/
def more : List String → String
  | [] => ""
  | x :: xs => ", " ++ (x ++ more xs)

theorem items_cons (x : String) (xs : List String) : items (x :: xs) = x ++ more xs := by
  induction xs generalizing x with
  | nil => simp [items, more]
  | cons y xs ih =>
    show String.intercalate ", " (x :: y :: xs) = x ++ (", " ++ (y ++ more xs))
    rw [String.intercalate_cons_cons, String.append_assoc, ← ih y]
    rfl

/-- Ends a row of items: no other item and no word goes on with it. -/
def Closes (z : String) : Prop := ∃ c s, z.toList = c :: s ∧ c ≠ ',' ∧ c.isAlphanum = false

theorem Closes.breaks (hz : Closes z) : Breaks z.toList := by
  obtain ⟨c, s, hz, -, hc⟩ := hz
  simpa [Breaks, hz] using hc

theorem Closes.breaks_more (hz : Closes z) (xs : List String) : Breaks (more xs ++ z).toList := by
  cases xs with
  | nil => simpa [more] using hz.breaks
  | cons x xs => simp [more, Breaks]

/-- Two rows of items, compared from the left: two items are looked at once those before them are
known to agree, and the end of one row never agrees with an item of the other. -/
inductive ItemsTell : List String → List String → Prop → Prop
  | nil {q : Prop} : q → ItemsTell [] [] q
  | cons {x y : String} {xs ys : List String} {p q : Prop} :
    Tells x y p → (p → ItemsTell xs ys q) → ItemsTell (x :: xs) (y :: ys) q
  | shorter {y : String} {ys : List String} {q : Prop} : Opens y → ItemsTell [] (y :: ys) q
  | longer {x : String} {xs : List String} {q : Prop} : Opens x → ItemsTell (x :: xs) [] q

namespace ItemsTell

variable {xs ys : List String}

theorem imp (h : ItemsTell xs ys p) (hpq : p → q) : ItemsTell xs ys q := by
  induction h with
  | nil hp => exact .nil (hpq hp)
  | cons hx _ ih => exact .cons hx fun ha => ih ha hpq
  | shorter hy => exact .shorter hy
  | longer hx => exact .longer hx

/-- A closing character is no comma. -/
theorem more_ne_closing (hz : Closes z) (x : String) (xs : List String) :
    Tells (more (x :: xs) ++ z) (more [] ++ z) q := by
  obtain ⟨c, r, hz, hne, -⟩ := hz
  intro s t _ _ heq
  simp only [more, String.toList_append, hz] at heq
  have hcomma : ',' = c := (List.cons.inj heq).1
  exact absurd hcomma.symm hne

theorem more_tells (h : ItemsTell xs ys q) (hz : Closes z) :
    Tells (more xs ++ z) (more ys ++ z) q := by
  induction h with
  | nil hq => exact .self hq
  | cons hx _ ih =>
    simp only [more, String.append_assoc]
    exact (hx.bind (hz.breaks_more _) (hz.breaks_more _) ih).before ", "
  | shorter _ => exact (more_ne_closing hz _ _).symm
  | longer _ => exact more_ne_closing hz _ _

/-- An item in front does not agree with the closing character. -/
theorem items_ne_closing (hz : Closes z) (hx : Opens x) (xs : List String) :
    Tells (items (x :: xs) ++ z) (items [] ++ z) q := by
  intro s t hs ht heq
  have hitem : Breaks ((items (x :: xs) ++ z).toList ++ s) := by
    rw [heq]
    exact hz.breaks.append ht
  rw [items_cons, String.append_assoc] at hitem
  exact absurd hitem.of_append (hx.append _)

theorem items_tells (h : ItemsTell xs ys q) (hz : Closes z) :
    Tells (items xs ++ z) (items ys ++ z) q := by
  cases h with
  | nil hq => exact .self hq
  | cons hx hxs =>
    rw [items_cons, items_cons, String.append_assoc, String.append_assoc]
    exact hx.bind (hz.breaks_more _) (hz.breaks_more _) fun hp => (hxs hp).more_tells hz
  | shorter hy => exact (items_ne_closing hz hy _).symm
  | longer hx => exact items_ne_closing hz hx _

/-- Values of one sort whose texts tell them apart. -/
theorem values {α : Type} {text : α → String} (hopens : ∀ x, Opens (text x)) {xs ys : List α}
    (h : ∀ x ∈ xs, ∀ y ∈ ys, Tells (text x) (text y) (x = y)) :
    ItemsTell (xs.map text) (ys.map text) (xs = ys) := by
  induction xs generalizing ys with
  | nil =>
    cases ys with
    | nil => exact .nil rfl
    | cons y ys => exact .shorter (hopens y)
  | cons x xs ih =>
    cases ys with
    | nil => exact .longer (hopens x)
    | cons y ys =>
      refine .cons (h x (by simp) y (by simp)) fun hxy => ?_
      have hrest : ItemsTell (xs.map text) (ys.map text) (xs = ys) :=
        ih fun x' hx' y' hy' => h x' (by simp [hx']) y' (by simp [hy'])
      exact hrest.imp fun hxs => by rw [hxy, hxs]

end ItemsTell

theorem list_tells {xs ys : List String} (h : ItemsTell xs ys q) :
    Tells (list xs) (list ys) q := by
  have hclose : Closes "]" := ⟨']', [], rfl, by decide, by decide⟩
  rw [list, list, String.append_assoc, String.append_assoc]
  exact (h.items_tells hclose).before "["

/-- Two tables of entries that their texts tell apart. -/
theorem table_tells {α : Type} {text : α → String} (hopens : ∀ x, Opens (text x))
    {xs ys : Array α} (h : ∀ x ∈ xs, ∀ y ∈ ys, Tells (text x) (text y) (x = y)) :
    Tells (list (xs.toList.map text)) (list (ys.toList.map text)) (xs = ys) := by
  refine (list_tells (ItemsTell.values hopens fun x hx y hy => ?_)).imp Array.toList_inj.mp
  exact h x (Array.mem_toList_iff.mp hx) y (Array.mem_toList_iff.mp hy)

/-- The fields of two records, compared from the left. -/
def FieldsTell (fs gs : List (String × String)) (q : Prop) : Prop :=
  ItemsTell (fs.map fun (label, value) => label ++ ": " ++ value)
    (gs.map fun (label, value) => label ++ ": " ++ value) q

theorem FieldsTell.nil (h : q) : FieldsTell [] [] q := ItemsTell.nil h

theorem FieldsTell.cons {label : String} {fs gs : List (String × String)} (h : Tells x y p)
    (hrest : p → FieldsTell fs gs q) : FieldsTell ((label, x) :: fs) ((label, y) :: gs) q :=
  ItemsTell.cons (h.before (label ++ ": ")) hrest

theorem record_tells {fs gs : List (String × String)} (name : String) (h : FieldsTell fs gs q) :
    Tells (record name fs) (record name gs) q := by
  have hclose : Closes " \x7d" := ⟨' ', ['\x7d'], rfl, by decide, by decide⟩
  have hsplit (fs : List (String × String)) : record name fs = name ++ " \x7b " ++
      (items (fs.map fun (label, value) => label ++ ": " ++ value) ++ " \x7d") :=
    String.append_assoc
  rw [hsplit, hsplit]
  exact (h.items_tells hclose).before (name ++ " \x7b ")

end MergeForm.Text
