import Mathlib.Data.Finset.Card
import MergeForm.Interner

/-! Names over whole runs of a store.  The strings of a store only grow at the end and no two of
them are alike, so a name stands for one string for good, and a string has one name. -/

namespace MergeForm

/-- What has a place in a table keeps it when more is put behind. -/
theorem getElem?_of_prefix_toList {α : Type} {table later : Array α}
    (h : table.toList <+: later.toList) {i : Nat} {x : α} (hx : table[i]? = some x) :
    later[i]? = some x := by
  obtain ⟨hlt, rfl⟩ := Array.getElem?_eq_some_iff.mp hx
  have hlater := List.prefix_iff_getElem?.mp h i (by simpa using hlt)
  simpa using hlater

namespace Interner

variable {t t' later : Interner} {s u : String} {n : Name}

/-! ### The strings of a store -/

theorem mem_numbers_iff : s ∈ t.numbers ↔ s ∈ t.texts := by
  rw [Std.HashMap.mem_iff_isSome_getElem?, Option.isSome_iff_exists, Array.mem_iff_getElem?]
  exact exists_congr fun i => t.numbers_eq s i

/-- Each string has one place. -/
theorem place_unique {i j : Nat} (hi : t.texts[i]? = some s) (hj : t.texts[j]? = some s) :
    i = j := by
  have hi' := (t.numbers_eq s i).mpr hi
  have hj' := (t.numbers_eq s j).mpr hj
  exact Option.some.inj (hi'.symm.trans hj')

theorem name_unique {m : Name} (hn : t.texts[n.index]? = some s)
    (hm : t.texts[m.index]? = some s) : n = m := by
  rw [← n.ofIndex_index, ← m.ofIndex_index, place_unique hn hm]

theorem nodup_texts (t : Interner) : t.texts.toList.Nodup := by
  refine List.nodup_iff_getElem?_ne_getElem?.mpr fun i j hij hj heq => ?_
  have hj' := List.getElem?_eq_getElem hj
  rw [hj'] at heq
  rw [Array.getElem?_toList] at heq hj'
  exact absurd (place_unique heq hj') (by omega)

/-- The strings that have a name. -/
def strings (t : Interner) : Finset String := t.texts.toList.toFinset

@[simp] theorem mem_strings : s ∈ t.strings ↔ s ∈ t.texts := by
  simp [strings]

theorem card_strings (t : Interner) : t.strings.card = t.size :=
  List.toFinset_card_of_nodup t.nodup_texts

theorem lookup_eq_of_text (h : t.texts[n.index]? = some s) : t.lookup n = s := by
  rw [lookup, h, Option.getD_some]

theorem lookup_of_size_le (h : t.size ≤ n.index) : t.lookup n = "" := by
  rw [lookup, Array.getElem?_eq_none h, Option.getD_none]

theorem text_of_index_lt (h : n.index < t.size) : t.texts[n.index]? = some (t.lookup n) := by
  rw [lookup, Array.getElem?_eq_getElem h, Option.getD_some]

/-- Where all places have a number, a string that is there has a name. -/
theorem exists_name (hfits : t.size ≤ UInt32.size) (h : s ∈ t.texts) :
    ∃ n : Name, t.texts[n.index]? = some s := by
  obtain ⟨i, hi⟩ := Array.mem_iff_getElem?.mp h
  have hlt := (Array.getElem?_eq_some_iff.mp hi).1
  exact ⟨Name.ofIndex i, by rw [Name.index_ofIndex (hlt.trans_le hfits), hi]⟩

/-! ### One string more -/

/-- A string that is there has its name already; one that is not goes to the end. -/
theorem intern_cases (t : Interner) (s : String) :
    (∃ i, t.texts[i]? = some s ∧ t.intern s = (Name.ofIndex i, t)) ∨
      s ∉ t.texts ∧ (t.intern s).1 = Name.ofIndex t.size ∧
        (t.intern s).2.texts = t.texts.push s := by
  unfold intern
  split
  · next i hi => exact .inl ⟨i, (t.numbers_eq s i).mp hi, rfl⟩
  · next hnone =>
    refine .inr ⟨fun hmem => ?_, rfl, rfl⟩
    obtain ⟨i, hi⟩ := Array.mem_iff_getElem?.mp hmem
    rw [(t.numbers_eq s i).mpr hi] at hnone
    cases hnone

theorem prefix_intern (t : Interner) (s : String) :
    t.texts.toList <+: (t.intern s).2.texts.toList := by
  rcases t.intern_cases s with ⟨i, -, heq⟩ | ⟨-, -, heq⟩
  · rw [heq]
  · simp [heq]

theorem size_intern_le {m : Nat} (h : t.texts.size ≤ m) (s : String) :
    (t.intern s).2.texts.size ≤ m + 1 := by
  rcases t.intern_cases s with ⟨i, -, heq⟩ | ⟨-, -, heq⟩
  · rw [heq]
    exact h.trans (Nat.le_succ m)
  · rw [heq, Array.size_push]
    omega

/-- The name given out for a string stands for it from then on. -/
theorem lookup_intern (h : (t.intern s).2.texts.toList <+: later.texts.toList)
    (hfits : later.texts.size ≤ UInt32.size) : later.lookup (t.intern s).1 = s := by
  obtain ⟨i, hname, htext⟩ : ∃ i, (t.intern s).1 = Name.ofIndex i ∧
      (t.intern s).2.texts[i]? = some s := by
    rcases t.intern_cases s with ⟨i, hi, heq⟩ | ⟨-, hname, heq⟩
    · exact ⟨i, by rw [heq], by rw [heq, hi]⟩
    · exact ⟨t.size, hname, by rw [heq]; exact Array.getElem?_push_size⟩
  have hlater := getElem?_of_prefix_toList h htext
  have hlt := (Array.getElem?_eq_some_iff.mp hlater).1
  rw [hname]
  exact lookup_eq_of_text (by rw [Name.index_ofIndex (by omega), hlater])

/-- A string that has a name keeps it, and the store is as before. -/
theorem tryIntern_known (h : t.texts[n.index]? = some s) : t.tryIntern s = .ok (n, t) := by
  have hmem : s ∈ t.texts := Array.mem_of_getElem? h
  rw [tryIntern, if_pos (.inl (mem_numbers_iff.mpr hmem))]
  rcases t.intern_cases s with ⟨i, hi, heq⟩ | ⟨hnew, -⟩
  · rw [heq, place_unique hi h, Name.ofIndex_index]
  · exact absurd hmem hnew

/-- A new string gets the next number. -/
theorem tryIntern_new (h : s ∉ t.texts) (hfree : t.size < UInt32.size) :
    ∃ t', t.tryIntern s = .ok (Name.ofIndex t.size, t') ∧ t'.texts = t.texts.push s := by
  refine ⟨(t.intern s).2, ?_⟩
  rcases t.intern_cases s with ⟨i, hi, -⟩ | ⟨-, hname, htexts⟩
  · exact absurd (Array.mem_of_getElem? hi) h
  · rw [tryIntern, if_pos (.inr hfree), ← hname]
    exact ⟨rfl, htexts⟩

theorem tryIntern_full (h : s ∉ t.texts) (hfull : UInt32.size ≤ t.size) :
    t.tryIntern s = .error .overflow := by
  have hno : ¬(s ∈ t.numbers ∨ t.size < UInt32.size) := by
    rw [mem_numbers_iff]
    rintro (hmem | hlt)
    · exact h hmem
    · omega
  rw [tryIntern, if_neg hno]

/-! ### Runs -/

/-- What a store is asked. -/
inductive Query
  | intern (s : String)
  | lookup (n : Name)
  deriving DecidableEq

/-- A query with the answer to it. -/
inductive Answered
  | interned (s : String) (n : Name)
  | lookedUp (n : Name) (s : String)
  deriving DecidableEq

/-- The string that is to be interned, if one is. -/
def Query.string? : Query → Option String
  | .intern s => some s
  | .lookup _ => none

/-- The strings that are to be interned. -/
def asked (queries : List Query) : Finset String := (queries.filterMap Query.string?).toFinset

def Answered.query : Answered → Query
  | .interned s _ => .intern s
  | .lookedUp n _ => .lookup n

def answer (t : Interner) : Query → Except InternError (Answered × Interner)
  | .intern s => (t.tryIntern s).map fun (n, t') => (.interned s n, t')
  | .lookup n => .ok (.lookedUp n (t.lookup n), t)

/-- Puts the queries to the store one after the other. -/
def run (t : Interner) : List Query → Except InternError (List Answered × Interner)
  | [] => .ok ([], t)
  | query :: queries => do
    let (first, t) ← t.answer query
    let (log, t) ← t.run queries
    return (first :: log, t)

variable {query : Query} {queries : List Query} {x : Answered} {log : List Answered}

theorem run_cons_eq_ok_iff : t.run (query :: queries) = .ok (log, t') ↔
    ∃ x mid rest, t.answer query = .ok (x, mid) ∧ mid.run queries = .ok (rest, t') ∧
      log = x :: rest := by
  simp only [run, bind, Except.bind, pure, Except.pure]
  rcases t.answer query with e | ⟨x, mid⟩
  · simp
  · rcases hrest : mid.run queries with e | ⟨rest, t''⟩
    · simp [hrest]
    · simp [hrest, and_comm, eq_comm]

theorem answer_intern_eq_ok_iff : t.answer (.intern s) = .ok (x, t') ↔
    ∃ n, t.tryIntern s = .ok (n, t') ∧ x = .interned s n := by
  simp only [answer]
  rcases t.tryIntern s with e | ⟨n, t''⟩
  · simp [Except.map]
  · simp [Except.map, and_comm, eq_comm]

theorem query_of_answer (h : t.answer query = .ok (x, t')) : x.query = query := by
  cases query with
  | intern s =>
    obtain ⟨n, -, rfl⟩ := answer_intern_eq_ok_iff.mp h
    rfl
  | lookup n =>
    obtain ⟨rfl, -⟩ := Prod.mk.inj (Except.ok.inj h)
    rfl

/-- The log of a run has the queries in order. -/
theorem map_query_of_run (h : t.run queries = .ok (log, t')) :
    log.map Answered.query = queries := by
  induction queries generalizing t log with
  | nil =>
    obtain ⟨rfl, -⟩ := Prod.mk.inj (Except.ok.inj h)
    rfl
  | cons query queries ih =>
    obtain ⟨x, mid, rest, hx, hrest, rfl⟩ := run_cons_eq_ok_iff.mp h
    rw [List.map_cons, query_of_answer hx, ih hrest]

/-- From the store `t` the queries of `log`, answered as they are, lead to the store `t'`. -/
structure Tracks (t : Interner) (log : List Answered) (t' : Interner) : Prop where
  fits : t'.size ≤ UInt32.size
  grows : t.texts.toList <+: t'.texts.toList
  named : ∀ s n, .interned s n ∈ log → t'.texts[n.index]? = some s
  texts : ∀ s, s ∈ t'.texts ↔ s ∈ t.texts ∨ ∃ n, .interned s n ∈ log

namespace Tracks

theorem idle (hfits : t.size ≤ UInt32.size) (hlog : ∀ s n, .interned s n ∉ log) :
    t.Tracks log t where
  fits := hfits
  grows := List.prefix_refl _
  named s n h := absurd h (hlog s n)
  texts s := by simp [hlog]

theorem trans {more : List Answered} {mid : Interner} (h : t.Tracks log mid)
    (h' : mid.Tracks more t') : t.Tracks (log ++ more) t' where
  fits := h'.fits
  grows := h.grows.trans h'.grows
  named s n hmem := by
    rcases List.mem_append.mp hmem with hmem | hmem
    · exact getElem?_of_prefix_toList h'.grows (h.named s n hmem)
    · exact h'.named s n hmem
  texts s := by
    rw [h'.texts, h.texts, or_assoc, ← exists_or]
    simp only [List.mem_append]

theorem intern (hfits : t.size ≤ UInt32.size) (h : t.tryIntern s = .ok (n, t')) :
    t.Tracks [.interned s n] t' := by
  by_cases hmem : s ∈ t.texts
  · obtain ⟨m, hm⟩ := exists_name hfits hmem
    obtain ⟨rfl, rfl⟩ : m = n ∧ t = t' := by simpa [tryIntern_known hm] using h
    refine ⟨hfits, List.prefix_refl _, ?_, ?_⟩
    · simpa using hm
    · intro u
      simpa using fun hu : u = s => hu ▸ hmem
  · have hfree : t.size < UInt32.size := by
      by_contra hfull
      rw [tryIntern_full hmem (by omega)] at h
      cases h
    obtain ⟨t'', hnew, htexts⟩ := tryIntern_new hmem hfree
    obtain ⟨rfl, rfl⟩ : Name.ofIndex t.size = n ∧ t'' = t' := by simpa [hnew] using h
    refine ⟨?_, ?_, ?_, ?_⟩
    · rw [size, htexts, Array.size_push]
      exact hfree
    · simp [htexts]
    · have hplace : t''.texts[(Name.ofIndex t.size).index]? = some s := by
        rw [Name.index_ofIndex hfree, htexts]
        exact Array.getElem?_push_size
      simpa using hplace
    · simp [htexts]

theorem answer (hfits : t.size ≤ UInt32.size) (h : t.answer query = .ok (x, t')) :
    t.Tracks [x] t' := by
  cases query with
  | intern s =>
    obtain ⟨n, hn, rfl⟩ := answer_intern_eq_ok_iff.mp h
    exact intern hfits hn
  | lookup n =>
    obtain ⟨rfl, rfl⟩ := Prod.mk.inj (Except.ok.inj h)
    exact idle hfits (by simp)

theorem run (hfits : t.size ≤ UInt32.size) (h : t.run queries = .ok (log, t')) :
    t.Tracks log t' := by
  induction queries generalizing t log with
  | nil =>
    obtain ⟨rfl, rfl⟩ := Prod.mk.inj (Except.ok.inj h)
    exact idle hfits (by simp)
  | cons query queries ih =>
    obtain ⟨x, mid, rest, hx, hrest, rfl⟩ := run_cons_eq_ok_iff.mp h
    have hfirst := answer hfits hx
    exact hfirst.trans (ih hfirst.fits hrest)

end Tracks

/-- A name that has a string is looked up as that string all through a run. -/
theorem lookedUp_of_run (hfits : t.size ≤ UInt32.size) (h : t.run queries = .ok (log, t'))
    (hn : t.texts[n.index]? = some s) (hmem : .lookedUp n u ∈ log) : u = s := by
  induction queries generalizing t log with
  | nil =>
    obtain ⟨rfl, -⟩ := Prod.mk.inj (Except.ok.inj h)
    simp at hmem
  | cons query queries ih =>
    obtain ⟨x, mid, rest, hx, hrest, rfl⟩ := run_cons_eq_ok_iff.mp h
    have hfirst := Tracks.answer hfits hx
    rcases List.mem_cons.mp hmem with rfl | hmem
    · cases query with
      | intern v =>
        obtain ⟨m, -, hcall⟩ := answer_intern_eq_ok_iff.mp hx
        cases hcall
      | lookup m =>
        obtain ⟨hcall, -⟩ := Prod.mk.inj (Except.ok.inj hx)
        obtain ⟨rfl, rfl⟩ : m = n ∧ t.lookup m = u := by simpa using hcall
        exact lookup_eq_of_text hn
    · exact ih hfirst.fits hrest (getElem?_of_prefix_toList hfirst.grows hn) hmem

/-- What is looked up after a string has got its name is that string. -/
theorem lookedUp_after (hfits : t.size ≤ UInt32.size) (h : t.run queries = .ok (log, t'))
    {before after : List Answered} (hlog : log = before ++ .lookedUp n u :: after)
    (hmem : .interned s n ∈ before) : u = s := by
  induction queries generalizing t log before with
  | nil =>
    obtain ⟨rfl, -⟩ := Prod.mk.inj (Except.ok.inj h)
    simp at hlog
  | cons query queries ih =>
    obtain ⟨x, mid, rest, hx, hrest, rfl⟩ := run_cons_eq_ok_iff.mp h
    have hfirst := Tracks.answer hfits hx
    cases before with
    | nil => simp at hmem
    | cons y before =>
      obtain ⟨rfl, rfl⟩ := List.cons.inj hlog
      rcases List.mem_cons.mp hmem with rfl | hmem
      · exact lookedUp_of_run hfirst.fits hrest (hfirst.named s n (by simp)) (by simp)
      · exact ih hfirst.fits hrest rfl hmem

theorem mem_asked : s ∈ asked queries ↔ .intern s ∈ queries := by
  simp only [asked, List.mem_toFinset, List.mem_filterMap]
  constructor
  · rintro ⟨query, hquery, hs⟩
    cases query with
    | intern u =>
      obtain rfl : u = s := by simpa [Query.string?] using hs
      exact hquery
    | lookup n => simp [Query.string?] at hs
  · exact fun h => ⟨.intern s, h, rfl⟩

theorem asked_intern (s : String) (queries : List Query) :
    asked (.intern s :: queries) = insert s (asked queries) := by
  simp [asked, Query.string?]

theorem asked_lookup (n : Name) (queries : List Query) :
    asked (.lookup n :: queries) = asked queries := rfl

theorem intern_mem_iff (h : t.run queries = .ok (log, t')) :
    .intern s ∈ queries ↔ ∃ n, .interned s n ∈ log := by
  rw [← map_query_of_run h, List.mem_map]
  constructor
  · rintro ⟨x, hx, hs⟩
    cases x with
    | interned u n =>
      obtain rfl : u = s := by simpa [Answered.query] using hs
      exact ⟨n, hx⟩
    | lookedUp n u => simp [Answered.query] at hs
  · rintro ⟨n, hn⟩
    exact ⟨_, hn, rfl⟩

/-- A run gets through just where all its strings together with those that are there can have a
number each. -/
theorem run_ok_iff (hfits : t.size ≤ UInt32.size) (queries : List Query) :
    (∃ log t', t.run queries = .ok (log, t')) ↔
      (t.strings ∪ asked queries).card ≤ UInt32.size := by
  induction queries generalizing t with
  | nil =>
    rw [show asked [] = ∅ from rfl, Finset.union_empty, card_strings]
    exact ⟨fun _ => hfits, fun _ => ⟨[], t, rfl⟩⟩
  | cons query queries ih =>
    have hcons (x : Answered) (mid : Interner) (hx : t.answer query = .ok (x, mid)) :
        (∃ log t', t.run (query :: queries) = .ok (log, t')) ↔
          ∃ log t', mid.run queries = .ok (log, t') := by
      simp only [run_cons_eq_ok_iff, hx]
      constructor
      · rintro ⟨log, t', y, mid', rest, hy, hrest, -⟩
        obtain ⟨-, rfl⟩ := Prod.mk.inj (Except.ok.inj hy)
        exact ⟨rest, t', hrest⟩
      · rintro ⟨rest, t', hrest⟩
        exact ⟨x :: rest, t', x, mid, rest, rfl, hrest, rfl⟩
    cases query with
    | lookup n => rw [hcons _ t rfl, asked_lookup, ih hfits]
    | intern s =>
      rw [asked_intern, Finset.union_insert]
      by_cases hmem : s ∈ t.texts
      · obtain ⟨n, hn⟩ := exists_name hfits hmem
        have hx := answer_intern_eq_ok_iff.mpr ⟨n, tryIntern_known hn, rfl⟩
        rw [hcons _ t hx, ih hfits, Finset.insert_eq_of_mem]
        simp [hmem]
      by_cases hfree : t.size < UInt32.size
      · obtain ⟨mid, hmid, htexts⟩ := tryIntern_new hmem hfree
        have hx := answer_intern_eq_ok_iff.mpr ⟨_, hmid, rfl⟩
        have hstrings : mid.strings = insert s t.strings := by
          ext u
          simp [htexts, or_comm]
        rw [hcons _ mid hx, ih (Tracks.answer hfits hx).fits, hstrings, Finset.insert_union]
      · have hfull := tryIntern_full hmem (by omega)
        refine iff_of_false ?_ ?_
        · rintro ⟨log, t', h⟩
          obtain ⟨x, mid, rest, hx, -⟩ := run_cons_eq_ok_iff.mp h
          obtain ⟨n, hn, -⟩ := answer_intern_eq_ok_iff.mp hx
          rw [hfull] at hn
          cases hn
        · have hle : (insert s t.strings).card ≤ (insert s (t.strings ∪ asked queries)).card :=
            Finset.card_le_card (Finset.insert_subset_insert s Finset.subset_union_left)
          rw [Finset.card_insert_of_notMem (by simpa using hmem), card_strings] at hle
          omega

/-! ### Runs from the beginning -/

/-- What the store `t` that a run has come to makes of names and strings, when the run began with
the fresh store and put the queries `queries`, which were answered as in `log`. -/
structure Faithful (queries : List Query) (log : List Answered) (t : Interner) : Prop where
  /-- Every query has been answered, in order. -/
  answered : log.map Answered.query = queries
  /-- Two strings have the same name just where they are the same. -/
  name_eq_iff : ∀ s u n m, .interned s n ∈ log → .interned u m ∈ log → (n = m ↔ s = u)
  /-- A name that has been given out stands for its string. -/
  lookup_name : ∀ s n, .interned s n ∈ log → t.lookup n = s
  /-- It has done so at every query in between. -/
  lookup_between : ∀ before after s u n, log = before ++ .lookedUp n u :: after →
    .interned s n ∈ before → u = s
  /-- The names in use are the numbers below the size, of which 0 is that of the empty string. -/
  used_iff : ∀ n : Name, n.index < t.size ↔ n = .empty ∨ ∃ s, .interned s n ∈ log
  lookup_empty : t.lookup .empty = ""
  /-- A string that has a name is given that name again, and nothing changes. -/
  repeated : ∀ s n, .interned s n ∈ log → t.tryIntern s = .ok (n, t)
  intern_empty : t.tryIntern "" = .ok (.empty, t)
  /-- A string that is new gets the number behind all others, if there is one. -/
  new : ∀ s, s ≠ "" → .intern s ∉ queries → t.size < UInt32.size →
    ∃ n t', t.tryIntern s = .ok (n, t') ∧ n.index = t.size ∧ t'.size = t.size + 1
  size_eq : t.size = 1 + ((asked queries).erase "").card
  intern_lookup : ∀ n : Name, n.index < t.size → t.tryIntern (t.lookup n) = .ok (n, t)
  lookup_unused : ∀ n : Name, t.size ≤ n.index → t.lookup n = ""

theorem size_fresh_le : fresh.size ≤ UInt32.size := by decide

theorem card_strings_fresh (queries : List Query) :
    (fresh.strings ∪ asked queries).card = 1 + ((asked queries).erase "").card := by
  have hfresh : fresh.strings ∪ asked queries = insert "" (asked queries) := rfl
  rw [hfresh, ← Finset.card_erase_add_one (Finset.mem_insert_self "" (asked queries)),
    Finset.erase_insert_eq_erase, Nat.add_comm]

theorem mem_texts_of_run (h : fresh.run queries = .ok (log, t)) :
    s ∈ t.texts ↔ s = "" ∨ .intern s ∈ queries := by
  rw [(Tracks.run size_fresh_le h).texts, intern_mem_iff h]
  simp [fresh]

theorem Faithful.of_run (h : fresh.run queries = .ok (log, t)) : Faithful queries log t := by
  have htracks := Tracks.run size_fresh_le h
  have hempty : t.texts[Name.empty.index]? = some "" :=
    getElem?_of_prefix_toList htracks.grows fresh.zero_eq
  exact
    { answered := map_query_of_run h
      name_eq_iff := by
        intro s u n m hs hu
        have hn := htracks.named s n hs
        have hm := htracks.named u m hu
        constructor
        · rintro rfl
          exact Option.some.inj (hn.symm.trans hm)
        · rintro rfl
          exact name_unique hn hm
      lookup_name := fun s n hs => lookup_eq_of_text (htracks.named s n hs)
      lookup_between := fun before after s u n hlog hs => lookedUp_after size_fresh_le h hlog hs
      used_iff := by
        intro n
        constructor
        · intro hn
          have htext := text_of_index_lt hn
          rcases (htracks.texts _).mp (Array.mem_of_getElem? htext) with hold | ⟨m, hm⟩
          · have hblank : t.lookup n = "" := by simpa [fresh] using hold
            rw [hblank] at htext
            exact .inl (name_unique htext hempty)
          · obtain rfl := name_unique htext (htracks.named _ m hm)
            exact .inr ⟨_, hm⟩
        · rintro (rfl | ⟨s, hs⟩)
          · exact (Array.getElem?_eq_some_iff.mp hempty).1
          · exact (Array.getElem?_eq_some_iff.mp (htracks.named s n hs)).1
      lookup_empty := lookup_eq_of_text hempty
      repeated := fun s n hs => tryIntern_known (htracks.named s n hs)
      intern_empty := tryIntern_known hempty
      new := by
        intro s hs hnew hfree
        have hnot : s ∉ t.texts := fun hold => ((mem_texts_of_run h).mp hold).elim hs hnew
        obtain ⟨t', ht', htexts⟩ := tryIntern_new hnot hfree
        exact ⟨_, t', ht', Name.index_ofIndex hfree, by simp [size, htexts]⟩
      size_eq := by
        have hstrings : t.strings = fresh.strings ∪ asked queries := by
          ext s
          rw [mem_strings, mem_texts_of_run h, Finset.mem_union, mem_asked]
          simp [fresh]
        rw [← card_strings, hstrings, card_strings_fresh]
      intern_lookup := fun n hn => tryIntern_known (text_of_index_lt hn)
      lookup_unused := fun n hn => lookup_of_size_le hn }

/-- Whatever a fresh store is asked, it answers if the empty string and all others that are to be
interned can have a number each; and the names that it gives out then are faithful. -/
theorem fresh_run_faithful (queries : List Query) :
    ((∃ log t, fresh.run queries = .ok (log, t)) ↔
        1 + ((asked queries).erase "").card ≤ UInt32.size) ∧
      ∀ log t, fresh.run queries = .ok (log, t) → Faithful queries log t := by
  refine ⟨?_, fun log t h => .of_run h⟩
  rw [run_ok_iff size_fresh_le, card_strings_fresh]

/-- Two strings, one of them twice, the empty string, and look-ups before and after. -/
def fewQueries : List Query :=
  [.lookup ⟨1⟩, .intern "x", .intern "", .intern "acc", .lookup ⟨1⟩, .intern "x", .lookup ⟨9⟩]

theorem fewQueries_faithful : ∃ log t, fresh.run fewQueries = .ok (log, t) ∧
    Faithful fewQueries log t ∧ t.size = 3 := by
  obtain ⟨hruns, hfaithful⟩ := fresh_run_faithful fewQueries
  obtain ⟨log, t, hrun⟩ := hruns.mpr (by decide)
  have hsize : 1 + ((asked fewQueries).erase "").card = 3 := by decide
  exact ⟨log, t, hrun, hfaithful log t hrun, (hfaithful log t hrun).size_eq.trans hsize⟩

end Interner

end MergeForm
