import MergeForm.Passes.Access
import MergeForm.Proofs.Steps

/-! The accesses to names in a function, in order.  A function is read phrase by phrase: what is
assigned to defines names, what is evaluated uses them, and an entry of a merge map defines its name
before its values are used, where a loop is entered only the value from before the loop. -/

namespace MergeForm

namespace Access

/-- The name that is defined, if one is. -/
def defined? : Access → Option Name
  | .define n => some n
  | .use _ => none

/-- The name that is used, if one is. -/
def used? : Access → Option Name
  | .define _ => none
  | .use n => some n

def defined (xs : List Access) : List Name := xs.filterMap defined?

def used (xs : List Access) : List Name := xs.filterMap used?

@[simp] theorem defined_nil : defined [] = [] := rfl

@[simp] theorem used_nil : used [] = [] := rfl

@[simp] theorem defined_define (n : Name) (xs : List Access) :
    defined (.define n :: xs) = n :: defined xs := rfl

@[simp] theorem defined_use (n : Name) (xs : List Access) :
    defined (.use n :: xs) = defined xs := rfl

@[simp] theorem used_define (n : Name) (xs : List Access) :
    used (.define n :: xs) = used xs := rfl

@[simp] theorem used_use (n : Name) (xs : List Access) :
    used (.use n :: xs) = n :: used xs := rfl

@[simp] theorem defined_append (xs ys : List Access) :
    defined (xs ++ ys) = defined xs ++ defined ys := List.filterMap_append

@[simp] theorem used_append (xs ys : List Access) :
    used (xs ++ ys) = used xs ++ used ys := List.filterMap_append

@[simp] theorem defined_map_define (ns : List Name) : defined (ns.map .define) = ns := by
  induction ns with
  | nil => rfl
  | cons n ns ih => simp [ih]

@[simp] theorem used_map_define (ns : List Name) : used (ns.map .define) = [] := by
  induction ns with
  | nil => rfl
  | cons n ns ih => simp [ih]

end Access

/-- A phrase of a function: an access by itself, or a node or run with all the accesses in it. -/
inductive Phrase
  | access (x : Access)
  | function (f : Function)
  | block (r : StmtRange)
  | stmt (id : StmtId)
  /-- An expression that is evaluated. -/
  | value (id : ExprId)
  /-- An expression that is assigned to. -/
  | target (id : ExprId)
  /-- A merge map where its loop is entered. -/
  | enter (r : PhiRange)
  /-- A merge map where its paths meet. -/
  | join (r : PhiRange)
  deriving DecidableEq

def Stmt.Form.phrases : Stmt.Form → List Phrase
  | .assign l r => [.target l, .value r]
  | .eval e => [.value e]
  | .ret e => [.value e]
  | .comment _ => []
  | .ifElse c t f m => [.value c, .block t, .block f, .join m]
  | .whileLoop c b m => [.enter m, .value c, .block b, .join m]
  | .forLoop v i o s b m =>
    [.target v, .value i, .enter m, .value o, .block b, .value s, .join m]
  | .parFor g b => [.value g, .value b]

namespace Phi

/-- An entry of a merge map where its loop is entered: the value that comes back is not there. -/
def entered (p : Phi) : List Phrase := [.access (.define p.name), .value p.left]

def joined (p : Phi) : List Phrase :=
  [.access (.define p.name), .value p.left, .value p.right]

end Phi

namespace Arena

/-- The phrases of a form that is evaluated, if its operands resolve. -/
def reads (a : Arena) : Expr.Form → Option (List Phrase)
  | .var n => some [.access (.use n)]
  | f =>
    match a.children (.form f) with
    | .ok ids => some (ids.map .value)
    | .error _ => none

/-- The phrases of a form that is assigned to, if its elements resolve.  What is assigned to within
a tuple is its elements; within an indexed value or an attribute it is no name, and the operands are
evaluated. -/
def writes (a : Arena) : Expr.Target → Option (List Phrase)
  | .var n => some [.access (.define n)]
  | .tuple r => (a.list? r).map fun ids => ids.map .target
  | .index v i => some [.value v, .value i]
  | .attribute v _ => some [.value v]

theorem reads_eq_some_iff {a : Arena} {f : Expr.Form} {pieces : List Phrase} :
    a.reads f = some pieces ↔
      (∃ n, f = .var n ∧ pieces = [.access (.use n)]) ∨
        (∀ n, f ≠ .var n) ∧ ∃ ids, a.children (.form f) = .ok ids ∧ pieces = ids.map .value := by
  unfold reads
  split
  · simp [eq_comm]
  · next hvar =>
    have hno : ¬∃ n, f = .var n ∧ pieces = [.access (.use n)] := by
      rintro ⟨n, hn, -⟩
      exact hvar n hn
    have hall : ∀ n, f ≠ .var n := hvar
    rw [or_iff_right hno, and_iff_right hall]
    cases h : a.children (.form f) with
    | ok ids => simp [eq_comm]
    | error g => simp

/-- What a phrase consists of, in order.  There is nothing where a number or a run does not resolve,
where a placeholder stands, or where a target cannot be assigned to. -/
def phrases (a : Arena) : Phrase → Option (List Phrase)
  | .access _ => none
  | .function f => some (f.params.map (fun n => .access (.define n)) ++ [.block f.body])
  | .block r => some (r.ids.map .stmt)
  | .stmt id =>
    match a.stmt? id with
    | some ⟨.form f, _⟩ => some f.phrases
    | _ => none
  | .value id =>
    match a.expr? id with
    | some ⟨.form f, _⟩ => a.reads f
    | _ => none
  | .target id =>
    match a.expr? id with
    | some ⟨.form f, _⟩ => f.target?.bind a.writes
    | _ => none
  | .enter r => (a.merge? r).map fun phis => phis.flatMap Phi.entered
  | .join r => (a.merge? r).map fun phis => phis.flatMap Phi.joined

end Arena

/-- The phrases, taken to pieces until only accesses are left, are the accesses `stream`. -/
inductive Stream (a : Arena) : List Phrase → List Access → Prop
  | nil : Stream a [] []
  | access (x : Access) {rest : List Phrase} {stream : List Access} :
    Stream a rest stream → Stream a (.access x :: rest) (x :: stream)
  | unfold {p : Phrase} {pieces rest : List Phrase} {inner after : List Access} :
    a.phrases p = some pieces → Stream a pieces inner → Stream a rest after →
    Stream a (p :: rest) (inner ++ after)

namespace Stream

variable {a : Arena}

theorem append {ps qs : List Phrase} {xs ys : List Access} (h : Stream a ps xs)
    (h' : Stream a qs ys) : Stream a (ps ++ qs) (xs ++ ys) := by
  induction h with
  | nil => exact h'
  | access x _ ih => exact .access x ih
  | unfold hp hpieces _ _ ih =>
    rw [List.append_assoc]
    exact .unfold hp hpieces ih

theorem unique {ps : List Phrase} {xs ys : List Access} (h : Stream a ps xs)
    (h' : Stream a ps ys) : xs = ys := by
  induction h generalizing ys with
  | nil =>
    cases h'
    rfl
  | access x _ ih =>
    cases h' with
    | access _ hrest => rw [ih hrest]
    | unfold hp => simp [Arena.phrases] at hp
  | unfold hp _ _ ihp ih =>
    cases h' with
    | access => simp [Arena.phrases] at hp
    | unfold hp' hpieces hrest =>
      obtain rfl := Option.some.inj (hp.symm.trans hp')
      rw [ihp hpieces, ih hrest]

theorem cons_value {id : ExprId} {ps : List Phrase} {xs : List Access}
    (h : Stream a (.value id :: ps) xs) :
    ∃ inner after, xs = inner ++ after ∧ Stream a [.value id] inner ∧ Stream a ps after := by
  cases h with
  | @unfold _ pieces _ inner after hp hpieces hrest =>
    refine ⟨inner, after, rfl, ?_, hrest⟩
    simpa using Stream.unfold hp hpieces .nil

theorem accesses (xs : List Access) : Stream a (xs.map .access) xs := by
  induction xs with
  | nil => exact .nil
  | cons x xs ih => exact .access x ih

/-- A phrase is what it consists of. -/
theorem single {p : Phrase} {pieces : List Phrase} {xs : List Access}
    (hp : a.phrases p = some pieces) (h : Stream a pieces xs) : Stream a [p] xs := by
  simpa using unfold hp h .nil

/-- A value consists of values, or is the use of a variable. -/
theorem isValue_of_mem_phrases {id : ExprId} {pieces : List Phrase}
    (h : a.phrases (.value id) = some pieces) :
    ∀ q ∈ pieces, (∃ i, q = .value i) ∨ ∃ n, q = .access (.use n) := by
  simp only [Arena.phrases] at h
  rcases hs : a.expr? id with _ | ⟨f | _, span⟩
  · simp [hs] at h
  · simp only [hs] at h
    rcases Arena.reads_eq_some_iff.mp h with ⟨n, rfl, rfl⟩ | ⟨-, ids, -, rfl⟩ <;> simp
  · simp [hs] at h

/-- What is evaluated defines nothing. -/
theorem defined_value {ps : List Phrase} {xs : List Access} (h : Stream a ps xs)
    (hps : ∀ p ∈ ps, (∃ id, p = .value id) ∨ ∃ n, p = .access (.use n)) :
    Access.defined xs = [] := by
  induction h with
  | nil => rfl
  | access x _ ih =>
    obtain ⟨n, rfl⟩ : ∃ n, x = .use n := by simpa using hps (.access x) (by simp)
    exact ih fun q hq => hps q (List.mem_cons_of_mem _ hq)
  | @unfold p pieces rest inner after hp _ _ ihp ih =>
    rcases hps p (by simp) with ⟨id, rfl⟩ | ⟨n, rfl⟩
    · rw [Access.defined_append, ihp (isValue_of_mem_phrases hp),
        ih fun q hq => hps q (List.mem_cons_of_mem _ hq)]
      rfl
    · simp [Arena.phrases] at hp

/-- The entries of a merge map where the loop is entered: their values may be taken together, since
these define nothing. -/
theorem entered {phis : List Phi} {xs : List Access}
    (h : Stream a (phis.map fun p => .value p.left) xs) :
    ∃ stream, Stream a (phis.flatMap Phi.entered) stream ∧
      Access.defined stream = phis.map Phi.name ∧ Access.used stream = Access.used xs := by
  induction phis generalizing xs with
  | nil =>
    cases h
    exact ⟨[], .nil, rfl, rfl⟩
  | cons p phis ih =>
    obtain ⟨inner, after, rfl, hleft, hrest⟩ := h.cons_value
    obtain ⟨stream, hstream, hdefined, hused⟩ := ih hrest
    have hnone : Access.defined inner = [] := hleft.defined_value (by simp)
    refine ⟨.define p.name :: (inner ++ stream), .access _ (hleft.append hstream), ?_, ?_⟩
    · simp [hnone, hdefined]
    · simp [hused]

end Stream

end MergeForm
