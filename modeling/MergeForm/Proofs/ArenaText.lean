import Mathlib.Data.List.Nodup
import MergeForm.Arena.Text
import MergeForm.Proofs.Steps
import MergeForm.Proofs.TextShapes

/-! The text of an arena tells it from every other one.  Nodes are told apart by the names of their
kinds, and those of one kind by the texts of their fields.  A run alone may share its text with
others, which begin where it begins and reach past the reserved number as it does; so the runs of an
arena have to end at that number or before it. -/

namespace MergeForm

open Text

/-! ### Small values -/

section

variable {f : Family}

theorem Id.headed (a : Id f) : Headed (f.label ++ "Id") a.text := by
  have hword : Word (f.label ++ "Id") := by cases f <;> decide
  have hinvalid : f.label ++ "Id::INVALID" = f.label ++ "Id" ++ "::INVALID" := by cases f <;> rfl
  rw [text]
  split
  · exact hword.headed_wrap _
  · rw [hinvalid]
    exact hword.headed.append (by decide)

theorem Id.opens (a : Id f) : Opens a.text := a.headed.opens (by cases f <;> decide)

theorem Id.text_tells (a b : Id f) : Tells a.text b.text (a = b) := by
  -- Behind the name of the family one goes on with a parenthesis and the other with a colon.
  have hmixed (n : UInt32) {q : Prop} :
      Tells (wrap (f.label ++ "Id") (word n)) (f.label ++ "Id::INVALID") q := by
    intro s t _ _ heq
    cases f <;> simp [wrap, Family.label] at heq
  by_cases ha : a.isValid
  · rw [text, if_pos ha]
    by_cases hb : b.isValid
    · rw [text, if_pos hb]
      exact (wrap_tells rfl (word_tells a.val b.val)).imp (congrArg Id.mk)
    · rw [text, if_neg hb]
      exact hmixed a.val
  · rw [text, if_neg ha]
    by_cases hb : b.isValid
    · rw [text, if_pos hb]
      exact (hmixed b.val).symm
    · rw [text, if_neg hb]
      have haInvalid : a = invalid := by simpa [isValid] using ha
      have hbInvalid : b = invalid := by simpa [isValid] using hb
      exact .self (haInvalid.trans hbInvalid.symm)

/-- The run ends at or before the reserved number. -/
def Slots.InReach (r : Slots f) : Prop := r.stop ≤ 0xFFFFFFFF

instance (r : Slots f) : Decidable r.InReach := inferInstanceAs (Decidable (r.stop ≤ 0xFFFFFFFF))

theorem Slots.ends_tell (r r' : Slots f) :
    Tells r.text r'.text (r.first = r'.first ∧ r.lastId = r'.lastId) :=
  wrap_tells rfl (Text.interval_tells _ _ _ _)

/-- Runs have the same text just where they start at the same slot and end, held at the reserved
number, at the same one. -/
theorem Slots.text_eq_iff {r r' : Slots f} :
    r.text = r'.text ↔ r.first = r'.first ∧ r.lastId = r'.lastId := by
  constructor
  · exact (ends_tell r r').of_eq
  · rintro ⟨hfirst, hlast⟩
    rw [text, text, hfirst, hlast]

example : (⟨0xFFFFFFFE, 1⟩ : StmtRange).text = (⟨0xFFFFFFFE, 7⟩ : StmtRange).text := by decide

theorem Slots.eq_of_ends {r r' : Slots f} (h : r.InReach) (h' : r'.InReach)
    (hfirst : r.first = r'.first) (hlast : r.lastId = r'.lastId) : r = r' := by
  have hsize : r.size = r'.size := by
    simp only [InReach, lastId, stop] at h h' hlast
    omega
  cases r
  cases r'
  simpa using ⟨UInt32.toNat_inj.mp hfirst, UInt32.toNat_inj.mp hsize⟩

theorem Slots.text_tells {r r' : Slots f} (h : r.InReach) (h' : r'.InReach) :
    Tells r.text r'.text (r = r') :=
  (ends_tell r r').imp fun hends => eq_of_ends h h' hends.1 hends.2

end

theorem Name.text_tells (m n : Name) : Tells m.text n.text (m = n) :=
  (wrap_tells rfl (word_tells m.val n.val)).imp (congrArg Name.mk)

theorem Name.opens (n : Name) : Opens n.text :=
  (Word.headed_wrap (show Word "Name" by decide) _).opens (by decide)

theorem Span.text_tells (s t : Span) : Tells s.text t.text (s = t) := by
  refine (interval_tells _ _ _ _).imp fun ⟨hstart, hstop⟩ => ?_
  cases s
  cases t
  simpa using ⟨UInt32.toNat_inj.mp hstart, UInt32.toNat_inj.mp hstop⟩

theorem Span.located_tells {x y : String} {p : Prop} (h : Tells x y p) (s t : Span) :
    Tells (x ++ " @ " ++ s.text) (y ++ " @ " ++ t.text) (p ∧ s = t) := by
  rw [String.append_assoc, String.append_assoc]
  refine h.bind (by simp [Breaks]) (by simp [Breaks]) fun hp => ?_
  exact ((s.text_tells t).before " @ ").imp fun hst => ⟨hp, hst⟩

theorem Prim.text_tells (p q : Prim) : Tells p.text q.text (p = q) := by
  have hword (p : Prim) : Word p.text := by cases p <;> decide
  have hnodup : (all.map text).Nodup := by decide
  exact ((hword p).tells (hword q)).imp
    (List.inj_on_of_nodup_map hnodup (mem_all p) (mem_all q))

theorem Typing.text_tells (s t : Typing) : Tells s.text t.text (s = t) := by
  have hword (t : Typing) : Word t.text := by cases t <;> decide
  refine ((hword s).tells (hword t)).imp ?_
  cases s <;> cases t <;> decide

/-- The word with which the text of a constant begins. -/
def Const.head : Const → String
  | .int _ => "Int"
  | .float _ => "Float"
  | .bool _ => "Bool"
  | .none => "None"

theorem Const.word_head (c : Const) : Word c.head := by
  cases c <;> simp only [head] <;> decide

theorem Const.headed (c : Const) : Headed c.head c.text := by
  have hword := c.word_head
  cases c with
  | int n => exact hword.headed_wrap _
  | float bits => exact hword.headed_wrap _
  | bool b => exact hword.headed_wrap _
  | none => exact hword.headed

theorem Const.text_tells (c d : Const) : Tells c.text d.text (c = d) := by
  refine c.headed.tells d.headed fun hhead => ?_
  cases c <;> cases d <;> simp [head] at hhead
  case int.int m n =>
    refine (wrap_tells rfl (int_tells m.toInt n.toInt)).imp fun h => ?_
    rw [Int64.toInt_inj.mp h]
  case float.float m n =>
    refine (wrap_tells rfl (nat_tells m.toNat n.toNat)).imp fun h => ?_
    rw [UInt64.toNat_inj.mp h]
  case bool.bool b c => exact (wrap_tells rfl (bool_tells b c)).imp (congrArg Const.bool)
  case none.none => exact .self rfl

/-! ### Expressions -/

namespace Expr

/-- The operand list of the form, where it has one, is within reach. -/
def Form.InReach (f : Form) : Prop := ∀ r ∈ f.list?, r.InReach

instance (f : Form) : Decidable f.InReach := inferInstanceAs (Decidable (∀ r ∈ f.list?, r.InReach))

theorem Tag.word_name (t : Tag) : Word t.name := by cases t <;> decide

theorem Tag.name_inj {s t : Tag} (h : s.name = t.name) : s = t := by
  have hnodup : (all.map name).Nodup := by decide
  exact List.inj_on_of_nodup_map hnodup (mem_all s) (mem_all t) h

theorem Tag.name_ne_empty (t : Tag) : t.name ≠ "" := by
  cases t <;> simp [name]

theorem optionText_tells (x y : Option ExprId) : Tells (optionText x) (optionText y) (x = y) := by
  refine option_tells (fun hx hy => ?_) fun a ha b hb => ?_
  · rw [Option.map_eq_none_iff.mp hx, Option.map_eq_none_iff.mp hy]
  · obtain ⟨x, rfl, rfl⟩ := Option.map_eq_some_iff.mp ha
    obtain ⟨y, rfl, rfl⟩ := Option.map_eq_some_iff.mp hb
    exact (x.text_tells y).imp (congrArg some)

theorem applyText_tells (name : String) (g g' : ExprId) {r r' : ExprRange} (hr : r.InReach)
    (hr' : r'.InReach) : Tells (applyText name g r) (applyText name g' r') (g = g' ∧ r = r') :=
  record_tells name <| .cons (g.text_tells g') fun hg =>
    .cons (Slots.text_tells hr hr') fun h => .nil ⟨hg, h⟩

theorem foldText_tells (g g' : ExprId) (i i' : Option ExprId) {r r' : ExprRange} (hr : r.InReach)
    (hr' : r'.InReach) : Tells (foldText g i r) (foldText g' i' r') (g = g' ∧ i = i' ∧ r = r') :=
  record_tells "Reduce" <| .cons (g.text_tells g') fun hg =>
    .cons (optionText_tells i i') fun hi =>
      .cons (Slots.text_tells hr hr') fun h => .nil ⟨hg, hi, h⟩

/-- Forms of one tag are told apart by what they hold. -/
theorem Form.payload_tells {f g : Form} (htag : f.tag = g.tag) (hf : f.InReach) (hg : g.InReach) :
    Tells f.payload g.payload (f = g) := by
  -- Of the pairs of constructors, only those of one tag are left.
  cases f <;> cases g <;> cases htag
  case var.var.refl n n' => exact (n.text_tells n').imp (congrArg var)
  case const.const.refl c c' => exact (c.text_tells c').imp (congrArg const)
  case untypedFn.untypedFn.refl i i' => exact (i.text_tells i').imp (congrArg untypedFn)
  case typedFn.typedFn.refl i i' => exact (i.text_tells i').imp (congrArg typedFn)
  case typeValue.typeValue.refl t t' => exact (t.text_tells t').imp (congrArg typeValue)
  case attribute.attribute.refl v n v' n' =>
    exact record_tells "Attribute" <| .cons (v.text_tells v') fun hv =>
      .cons (n.text_tells n') fun hn => .nil (by rw [hv, hn])
  case cast.cast.refl v t v' t' =>
    exact record_tells "Cast" <| .cons (v.text_tells v') fun hv =>
      .cons (t.text_tells t') fun ht => .nil (by rw [hv, ht])
  case closureElt.closureElt.refl c i c' i' =>
    exact record_tells "ClosureElt" <| .cons (c.text_tells c') fun hc =>
      .cons (word_tells i i') fun hi => .nil (by rw [hc, hi])
  case tupleProj.tupleProj.refl t i t' i' =>
    exact record_tells "TupleProj" <| .cons (t.text_tells t') fun ht =>
      .cons (word_tells i i') fun hi => .nil (by rw [ht, hi])
  case tuple.tuple.refl r r' =>
    exact (Slots.text_tells (hf r rfl) (hg r' rfl)).imp (congrArg tuple)
  case struct.struct.refl r r' =>
    exact (Slots.text_tells (hf r rfl) (hg r' rfl)).imp (congrArg struct)
  case array.array.refl r r' =>
    exact (Slots.text_tells (hf r rfl) (hg r' rfl)).imp (congrArg array)
  case index.index.refl v i v' i' =>
    exact record_tells "Index" <| .cons (v.text_tells v') fun hv =>
      .cons (i.text_tells i') fun hi => .nil (by rw [hv, hi])
  case slice.slice.refl x y z x' y' z' =>
    exact record_tells "Slice" <| .cons (x.text_tells x') fun hx =>
      .cons (y.text_tells y') fun hy => .cons (z.text_tells z') fun hz =>
      .nil (by rw [hx, hy, hz])
  case range.range.refl x y z x' y' z' =>
    exact record_tells "Range" <| .cons (x.text_tells x') fun hx =>
      .cons (y.text_tells y') fun hy => .cons (z.text_tells z') fun hz =>
      .nil (by rw [hx, hy, hz])
  case primCall.primCall.refl p r p' r' =>
    exact record_tells "PrimCall" <| .cons (p.text_tells p') fun hp =>
      .cons (Slots.text_tells (hf r rfl) (hg r' rfl)) fun hr => .nil (by rw [hp, hr])
  case call.call.refl k r k' r' =>
    exact (applyText_tells "Call" k k' (hf r rfl) (hg r' rfl)).imp fun ⟨hk, hr⟩ => by rw [hk, hr]
  case closure.closure.refl k r k' r' =>
    exact (applyText_tells "Closure" k k' (hf r rfl) (hg r' rfl)).imp fun ⟨hk, hr⟩ => by rw [hk, hr]
  case alloc.alloc.refl c t c' t' =>
    exact record_tells "Alloc" <| .cons (c.text_tells c') fun hc =>
      .cons (t.text_tells t') fun ht => .nil (by rw [hc, ht])
  case allocArray.allocArray.refl s t s' t' =>
    exact record_tells "AllocArray" <| .cons (s.text_tells s') fun hs =>
      .cons (t.text_tells t') fun ht => .nil (by rw [hs, ht])
  case arrayView.arrayView.refl d s t o n d' s' t' o' n' =>
    exact record_tells "ArrayView" <| .cons (d.text_tells d') fun hd =>
      .cons (s.text_tells s') fun hs => .cons (t.text_tells t') fun ht =>
      .cons (o.text_tells o') fun ho => .cons (n.text_tells n') fun hn =>
      .nil (by rw [hd, hs, ht, ho, hn])
  case shape.shape.refl x x' => exact (x.text_tells x').imp (congrArg shape)
  case strides.strides.refl x x' => exact (x.text_tells x').imp (congrArg strides)
  case ravel.ravel.refl x x' => exact (x.text_tells x').imp (congrArg ravel)
  case reshape.reshape.refl x s x' s' =>
    exact record_tells "Reshape" <| .cons (x.text_tells x') fun hx =>
      .cons (s.text_tells s') fun hs => .nil (by rw [hx, hs])
  case map.map.refl k r k' r' =>
    exact (applyText_tells "Map" k k' (hf r rfl) (hg r' rfl)).imp fun ⟨hk, hr⟩ => by rw [hk, hr]
  case outerMap.outerMap.refl k r k' r' =>
    exact (applyText_tells "Map" k k' (hf r rfl) (hg r' rfl)).imp fun ⟨hk, hr⟩ => by rw [hk, hr]
  case reduce.reduce.refl k i r k' i' r' =>
    exact (foldText_tells k k' i i' (hf r rfl) (hg r' rfl)).imp fun ⟨hk, hi, hr⟩ => by
      rw [hk, hi, hr]
  case scan.scan.refl k i r k' i' r' =>
    exact (foldText_tells k k' i i' (hf r rfl) (hg r' rfl)).imp fun ⟨hk, hi, hr⟩ => by
      rw [hk, hi, hr]
  case indexMap.indexMap.refl k s k' s' =>
    exact record_tells "IndexMap" <| .cons (k.text_tells k') fun hk =>
      .cons (s.text_tells s') fun hs => .nil (by rw [hk, hs])
  case indexReduce.indexReduce.refl k c s i k' c' s' i' =>
    exact record_tells "IndexReduce" <| .cons (k.text_tells k') fun hk =>
      .cons (c.text_tells c') fun hc => .cons (s.text_tells s') fun hs =>
      .cons (i.text_tells i') fun hi => .nil (by rw [hk, hc, hs, hi])
  case indexScan.indexScan.refl k i s k' i' s' =>
    exact record_tells "IndexScan" <| .cons (k.text_tells k') fun hk =>
      .cons (optionText_tells i i') fun hi => .cons (s.text_tells s') fun hs =>
      .nil (by rw [hk, hi, hs])

theorem Kind.headed (k : Kind) : Headed k.tag.name k.text := by
  cases k with
  | form f => exact (Tag.word_name f.tag).headed_wrap f.payload
  | error => exact (Tag.word_name .error).headed

theorem Kind.text_tells {k l : Kind} (hk : ∀ f ∈ k.form?, f.InReach)
    (hl : ∀ f ∈ l.form?, f.InReach) : Tells k.text l.text (k = l) := by
  refine k.headed.tells l.headed fun hname => ?_
  have htag : k.tag = l.tag := Tag.name_inj hname
  cases k with
  | form f =>
    cases l with
    | form g =>
      have hpayload := Form.payload_tells htag (hk f rfl) (hl g rfl)
      exact (wrap_tells hname hpayload).imp (congrArg form)
    | error => exact absurd htag f.tag_ne_error
  | error =>
    cases l with
    | form g => exact absurd htag.symm g.tag_ne_error
    | error => exact .self rfl

theorem opens (e : Expr) : Opens e.text :=
  ((e.kind.headed.opens e.kind.tag.name_ne_empty).append _).append _

theorem text_tells {e e' : Expr} (h : ∀ f ∈ e.kind.form?, f.InReach)
    (h' : ∀ f ∈ e'.kind.form?, f.InReach) : Tells e.text e'.text (e = e') := by
  refine (Span.located_tells (Kind.text_tells h h') e.span e'.span).imp fun ⟨hkind, hspan⟩ => ?_
  cases e
  cases e'
  simpa using ⟨hkind, hspan⟩

end Expr

/-! ### Statements, entries and functions -/

namespace Stmt

/-- The blocks of the statement and its merge map are within reach. -/
structure Form.InReach (f : Form) : Prop where
  blocks : ∀ r ∈ f.blocks, r.InReach
  merge : ∀ r ∈ f.merge?, r.InReach

instance (f : Form) : Decidable f.InReach :=
  decidable_of_iff ((∀ r ∈ f.blocks, r.InReach) ∧ ∀ r ∈ f.merge?, r.InReach)
    ⟨fun h => ⟨h.1, h.2⟩, fun h => ⟨h.blocks, h.merge⟩⟩

theorem Form.word_name (f : Form) : Word f.name := by
  cases f <;> simp only [name] <;> decide

theorem Form.payload_tells {f g : Form} (hname : f.name = g.name) (hf : f.InReach)
    (hg : g.InReach) : Tells f.payload g.payload (f = g) := by
  cases f <;> cases g <;> simp [name] at hname
  case assign.assign l r l' r' =>
    exact record_tells "Assign" <| .cons (l.text_tells l') fun hl =>
      .cons (r.text_tells r') fun hr => .nil (by rw [hl, hr])
  case eval.eval e e' => exact (e.text_tells e').imp (congrArg eval)
  case ret.ret e e' => exact (e.text_tells e').imp (congrArg ret)
  case comment.comment n n' => exact (n.text_tells n').imp (congrArg comment)
  case ifElse.ifElse c t e m c' t' e' m' =>
    have htrue := Slots.text_tells (hf.blocks t (.head _)) (hg.blocks t' (.head _))
    have hfalse := Slots.text_tells (hf.blocks e (.tail _ (.head _)))
      (hg.blocks e' (.tail _ (.head _)))
    exact record_tells "If" <| .cons (c.text_tells c') fun hc => .cons htrue fun ht =>
      .cons hfalse fun he => .cons (Slots.text_tells (hf.merge m rfl) (hg.merge m' rfl)) fun hm =>
        .nil (by rw [hc, ht, he, hm])
  case whileLoop.whileLoop c b m c' b' m' =>
    have hbody := Slots.text_tells (hf.blocks b (.head _)) (hg.blocks b' (.head _))
    exact record_tells "While" <| .cons (c.text_tells c') fun hc => .cons hbody fun hb =>
      .cons (Slots.text_tells (hf.merge m rfl) (hg.merge m' rfl)) fun hm =>
        .nil (by rw [hc, hb, hm])
  case forLoop.forLoop v i o s b m v' i' o' s' b' m' =>
    have hbody := Slots.text_tells (hf.blocks b (.head _)) (hg.blocks b' (.head _))
    exact record_tells "ForLoop" <| .cons (v.text_tells v') fun hv =>
      .cons (i.text_tells i') fun hi => .cons (o.text_tells o') fun ho =>
      .cons (s.text_tells s') fun hs => .cons hbody fun hb =>
      .cons (Slots.text_tells (hf.merge m rfl) (hg.merge m' rfl)) fun hm =>
      .nil (by rw [hv, hi, ho, hs, hb, hm])
  case parFor.parFor k b k' b' =>
    exact record_tells "ParFor" <| .cons (k.text_tells k') fun hk =>
      .cons (b.text_tells b') fun hb => .nil (by rw [hk, hb])

theorem Kind.headed (k : Kind) : Headed k.name k.text := by
  cases k with
  | form f => exact f.word_name.headed_wrap f.payload
  | error => exact Word.headed (by decide)

theorem Kind.name_ne_empty (k : Kind) : k.name ≠ "" := by
  cases k with
  | form f => cases f <;> simp [name, Form.name]
  | error => simp [name]

theorem Form.name_ne_error (f : Form) : f.name ≠ "Error" := by
  cases f <;> simp [name]

theorem Kind.text_tells {k l : Kind} (hk : ∀ f ∈ k.form?, f.InReach)
    (hl : ∀ f ∈ l.form?, f.InReach) : Tells k.text l.text (k = l) := by
  refine k.headed.tells l.headed fun hname => ?_
  cases k with
  | form f =>
    cases l with
    | form g =>
      have hpayload := Form.payload_tells hname (hk f rfl) (hl g rfl)
      exact (wrap_tells hname hpayload).imp (congrArg form)
    | error => exact absurd hname f.name_ne_error
  | error =>
    cases l with
    | form g => exact absurd hname.symm g.name_ne_error
    | error => exact .self rfl

theorem opens (s : Stmt) : Opens s.text :=
  ((s.kind.headed.opens s.kind.name_ne_empty).append _).append _

theorem text_tells {s s' : Stmt} (h : ∀ f ∈ s.kind.form?, f.InReach)
    (h' : ∀ f ∈ s'.kind.form?, f.InReach) : Tells s.text s'.text (s = s') := by
  refine (Span.located_tells (Kind.text_tells h h') s.span s'.span).imp fun ⟨hkind, hspan⟩ => ?_
  cases s
  cases s'
  simpa using ⟨hkind, hspan⟩

end Stmt

theorem Phi.opens (p : Phi) : Opens p.text :=
  (Word.headed_record (show Word "PhiNode" by decide) _).opens (by decide)

theorem Phi.text_tells (p q : Phi) : Tells p.text q.text (p = q) :=
  record_tells "PhiNode" <| .cons (p.name.text_tells q.name) fun hname =>
    .cons (p.left.text_tells q.left) fun hleft => .cons (p.right.text_tells q.right) fun hright =>
      .nil (by cases p; cases q; simpa using ⟨hname, hleft, hright⟩)

theorem Function.opens (f : Function) : Opens f.text :=
  (Word.headed_record (show Word "Function" by decide) _).opens (by decide)

theorem Function.text_tells {f g : Function} (hf : f.body.InReach) (hg : g.body.InReach) :
    Tells f.text g.text (f = g) := by
  have hnames := ItemsTell.values Name.opens fun m (_ : m ∈ f.params) n (_ : n ∈ g.params) =>
    m.text_tells n
  exact record_tells "Function" <| .cons (f.name.text_tells g.name) fun hname =>
    .cons (f.typing.text_tells g.typing) fun htyping => .cons (list_tells hnames) fun hparams =>
      .cons (Slots.text_tells hf hg) fun hbody => .cons (f.span.text_tells g.span) fun hspan =>
        .nil (by cases f; cases g; simpa using ⟨hname, htyping, hparams, hbody, hspan⟩)

/-! ### Arenas -/

namespace Arena

/-- No run that is stored in a node or as the body of a function reaches past the reserved
number. -/
structure RunsInReach (a : Arena) : Prop where
  exprs : ∀ e ∈ a.exprs, ∀ f ∈ e.kind.form?, f.InReach
  stmts : ∀ s ∈ a.stmts, ∀ f ∈ s.kind.form?, f.InReach
  functions : ∀ f ∈ a.functions, f.body.InReach

instance (a : Arena) : Decidable a.RunsInReach :=
  decidable_of_iff ((∀ e ∈ a.exprs, ∀ f ∈ e.kind.form?, f.InReach) ∧
      (∀ s ∈ a.stmts, ∀ f ∈ s.kind.form?, f.InReach) ∧ ∀ f ∈ a.functions, f.body.InReach)
    ⟨fun h => ⟨h.1, h.2.1, h.2.2⟩, fun h => ⟨h.exprs, h.stmts, h.functions⟩⟩

theorem text_tells {a b : Arena} (ha : a.RunsInReach) (hb : b.RunsInReach) :
    Tells a.text b.text (a = b) := by
  have hexprs := table_tells Expr.opens fun e he e' he' =>
    Expr.text_tells (ha.exprs e he) (hb.exprs e' he')
  have hoperands := table_tells Id.opens fun i (_ : i ∈ a.operands) j (_ : j ∈ b.operands) =>
    i.text_tells j
  have hstmts := table_tells Stmt.opens fun s hs s' hs' =>
    Stmt.text_tells (ha.stmts s hs) (hb.stmts s' hs')
  have hphis := table_tells Phi.opens fun p (_ : p ∈ a.phis) q (_ : q ∈ b.phis) => p.text_tells q
  have hfunctions := table_tells Function.opens fun f hf g hg =>
    Function.text_tells (ha.functions f hf) (hb.functions g hg)
  refine record_tells "IrArena" <| .cons hexprs fun he => .cons hoperands fun ho =>
    .cons hstmts fun hs => .cons hphis fun hp => .cons hfunctions fun hf => .nil ?_
  cases a
  cases b
  simpa using ⟨he, ho, hs, hp, hf⟩

/-- Arenas whose runs stay within reach have the same text only if they are the same arena. -/
theorem text_inj {a b : Arena} (ha : a.RunsInReach) (hb : b.RunsInReach) :
    a.text = b.text ↔ a = b :=
  ⟨(text_tells ha hb).of_eq, congrArg text⟩

/-- A function around a loop with the given body. -/
def oneLoop (body : StmtRange) : Arena where
  exprs := #[⟨.form (.tuple ⟨0, 1⟩), .dummy⟩, ⟨.form (.const (.int (-1))), ⟨3, 5⟩⟩]
  operands := #[.invalid]
  stmts := #[⟨.form (.whileLoop ⟨0⟩ body ⟨0xFFFFFFFF, 0⟩), ⟨4, 9⟩⟩]
  phis := #[⟨⟨1⟩, ⟨0⟩, .invalid⟩]
  functions := #[⟨⟨1⟩, .typed, [⟨2⟩, ⟨3⟩], ⟨0, 1⟩, ⟨4, 9⟩⟩]

/-- A loop over no statement and one over the last statement that has a number. -/
theorem oneLoop_text_ne :
    (oneLoop ⟨0xFFFFFFFE, 0⟩).RunsInReach ∧ (oneLoop ⟨0xFFFFFFFE, 1⟩).RunsInReach ∧
      (oneLoop ⟨0xFFFFFFFE, 0⟩).text ≠ (oneLoop ⟨0xFFFFFFFE, 1⟩).text := by
  have hnone : (oneLoop ⟨0xFFFFFFFE, 0⟩).RunsInReach := by decide
  have hlast : (oneLoop ⟨0xFFFFFFFE, 1⟩).RunsInReach := by decide
  refine ⟨hnone, hlast, fun htext => ?_⟩
  have hsame := (text_inj hnone hlast).mp htext
  exact absurd hsame (by decide)

end Arena

end MergeForm
