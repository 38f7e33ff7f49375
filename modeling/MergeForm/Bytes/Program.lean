import MergeForm.Arena.Basic
import MergeForm.Bytes.Wire

/-! The byte form of an arena: its five tables one after the other.  A node is its kind, written as
one of the alternatives in the order in which they are declared, and its span. -/

namespace MergeForm

open Wire

instance {f : Family} : Wire (Id f) where
  encode id := encode id.val
  decode := Id.mk <$> decode

instance {f : Family} : Wire (Slots f) where
  encode r := encode r.start ++ encode r.len
  decode := Slots.mk <$> decode <*> decode

instance : Wire Name where
  encode n := encode n.val
  decode := Name.mk <$> decode

instance : Wire Span where
  encode s := encode s.start ++ encode s.stop
  decode := Span.mk <$> decode <*> decode

instance : Wire Prim where
  encode p := variant (Prim.all.idxOf p) []
  decode := Decoder.choose (Prim.all.map pure)

instance : Wire Const where
  encode
    | .int n => variant 0 (encode n)
    | .float n => variant 1 (encode n)
    | .bool b => variant 2 (encode b)
    | .none => variant 3 []
  decode := Decoder.choose [
    Const.int <$> decode,
    Const.float <$> decode,
    Const.bool <$> decode,
    pure Const.none]

namespace Expr

def Form.encode : Form → List UInt8
  | .var n => variant 0 (Wire.encode n)
  | .const c => variant 1 (Wire.encode c)
  | .untypedFn f => variant 2 (Wire.encode f)
  | .typedFn f => variant 3 (Wire.encode f)
  | .typeValue t => variant 4 (Wire.encode t)
  | .attribute v n => variant 5 (Wire.encode v ++ Wire.encode n)
  | .cast v t => variant 6 (Wire.encode v ++ Wire.encode t)
  | .closureElt c i => variant 7 (Wire.encode c ++ Wire.encode i)
  | .tupleProj t i => variant 8 (Wire.encode t ++ Wire.encode i)
  | .tuple r => variant 9 (Wire.encode r)
  | .struct r => variant 10 (Wire.encode r)
  | .array r => variant 11 (Wire.encode r)
  | .index v i => variant 12 (Wire.encode v ++ Wire.encode i)
  | .slice x y z => variant 13 (Wire.encode x ++ Wire.encode y ++ Wire.encode z)
  | .range x y z => variant 14 (Wire.encode x ++ Wire.encode y ++ Wire.encode z)
  | .primCall p r => variant 15 (Wire.encode p ++ Wire.encode r)
  | .call f r => variant 16 (Wire.encode f ++ Wire.encode r)
  | .closure f r => variant 17 (Wire.encode f ++ Wire.encode r)
  | .alloc c t => variant 18 (Wire.encode c ++ Wire.encode t)
  | .allocArray s t => variant 19 (Wire.encode s ++ Wire.encode t)
  | .arrayView d s t o n =>
    variant 20 (Wire.encode d ++ Wire.encode s ++ Wire.encode t ++ Wire.encode o ++ Wire.encode n)
  | .shape x => variant 21 (Wire.encode x)
  | .strides x => variant 22 (Wire.encode x)
  | .ravel x => variant 23 (Wire.encode x)
  | .reshape x s => variant 24 (Wire.encode x ++ Wire.encode s)
  | .map f r => variant 25 (Wire.encode f ++ Wire.encode r)
  | .outerMap f r => variant 26 (Wire.encode f ++ Wire.encode r)
  | .reduce f i r => variant 27 (Wire.encode f ++ Wire.encode i ++ Wire.encode r)
  | .scan f i r => variant 28 (Wire.encode f ++ Wire.encode i ++ Wire.encode r)
  | .indexMap f s => variant 29 (Wire.encode f ++ Wire.encode s)
  | .indexReduce f c s i =>
    variant 30 (Wire.encode f ++ Wire.encode c ++ Wire.encode s ++ Wire.encode i)
  | .indexScan f i s => variant 31 (Wire.encode f ++ Wire.encode i ++ Wire.encode s)

/-- The decoders of the forms in their order. -/
def formDecoders : List (Decoder Form) := [
  Form.var <$> decode,
  Form.const <$> decode,
  Form.untypedFn <$> decode,
  Form.typedFn <$> decode,
  Form.typeValue <$> decode,
  Form.attribute <$> decode <*> decode,
  Form.cast <$> decode <*> decode,
  Form.closureElt <$> decode <*> decode,
  Form.tupleProj <$> decode <*> decode,
  Form.tuple <$> decode,
  Form.struct <$> decode,
  Form.array <$> decode,
  Form.index <$> decode <*> decode,
  Form.slice <$> decode <*> decode <*> decode,
  Form.range <$> decode <*> decode <*> decode,
  Form.primCall <$> decode <*> decode,
  Form.call <$> decode <*> decode,
  Form.closure <$> decode <*> decode,
  Form.alloc <$> decode <*> decode,
  Form.allocArray <$> decode <*> decode,
  Form.arrayView <$> decode <*> decode <*> decode <*> decode <*> decode,
  Form.shape <$> decode,
  Form.strides <$> decode,
  Form.ravel <$> decode,
  Form.reshape <$> decode <*> decode,
  Form.map <$> decode <*> decode,
  Form.outerMap <$> decode <*> decode,
  Form.reduce <$> decode <*> decode <*> decode,
  Form.scan <$> decode <*> decode <*> decode,
  Form.indexMap <$> decode <*> decode,
  Form.indexReduce <$> decode <*> decode <*> decode <*> decode,
  Form.indexScan <$> decode <*> decode <*> decode]

/-- The placeholder is the alternative after all forms. -/
instance : Wire Kind where
  encode
    | .form f => f.encode
    | .error => variant 32 []
  decode := Decoder.choose (formDecoders.map (fun d => Kind.form <$> d) ++ [pure Kind.error])

end Expr

instance : Wire Expr where
  encode e := encode e.kind ++ encode e.span
  decode := Expr.mk <$> decode <*> decode

namespace Stmt

def Form.encode : Form → List UInt8
  | .assign l r => variant 0 (Wire.encode l ++ Wire.encode r)
  | .eval e => variant 1 (Wire.encode e)
  | .ret e => variant 2 (Wire.encode e)
  | .comment n => variant 3 (Wire.encode n)
  | .ifElse c t f m =>
    variant 4 (Wire.encode c ++ Wire.encode t ++ Wire.encode f ++ Wire.encode m)
  | .whileLoop c b m => variant 5 (Wire.encode c ++ Wire.encode b ++ Wire.encode m)
  | .forLoop v i o s b m =>
    variant 6 (Wire.encode v ++ Wire.encode i ++ Wire.encode o ++ Wire.encode s ++
      Wire.encode b ++ Wire.encode m)
  | .parFor f b => variant 7 (Wire.encode f ++ Wire.encode b)

/-- The decoders of the forms in their order. -/
def formDecoders : List (Decoder Form) := [
  Form.assign <$> decode <*> decode,
  Form.eval <$> decode,
  Form.ret <$> decode,
  Form.comment <$> decode,
  Form.ifElse <$> decode <*> decode <*> decode <*> decode,
  Form.whileLoop <$> decode <*> decode <*> decode,
  Form.forLoop <$> decode <*> decode <*> decode <*> decode <*> decode <*> decode,
  Form.parFor <$> decode <*> decode]

/-- The placeholder is the alternative after all forms. -/
instance : Wire Kind where
  encode
    | .form f => f.encode
    | .error => variant 8 []
  decode := Decoder.choose (formDecoders.map (fun d => Kind.form <$> d) ++ [pure Kind.error])

end Stmt

instance : Wire Stmt where
  encode s := encode s.kind ++ encode s.span
  decode := Stmt.mk <$> decode <*> decode

instance : Wire Phi where
  encode p := encode p.name ++ encode p.left ++ encode p.right
  decode := Phi.mk <$> decode <*> decode <*> decode

instance : Wire Typing where
  encode
    | .untyped => variant 0 []
    | .typed => variant 1 []
  decode := Decoder.choose [pure Typing.untyped, pure Typing.typed]

instance : Wire Function where
  encode f :=
    encode f.name ++ encode f.typing ++ encode f.params ++ encode f.body ++ encode f.span
  decode := Function.mk <$> decode <*> decode <*> decode <*> decode <*> decode

instance : Wire Arena where
  encode a :=
    encode a.exprs ++ encode a.operands ++ encode a.stmts ++ encode a.phis ++ encode a.functions
  decode := Arena.mk <$> decode <*> decode <*> decode <*> decode <*> decode

namespace Arena

def toBytes (a : Arena) : List UInt8 := encode a

/-- The arena whose byte form `bytes` begins with; what comes after it is not looked at. -/
def ofBytes? (bytes : List UInt8) : Except DecodeError Arena :=
  (decode bytes : Except DecodeError (Arena × List UInt8)).map Prod.fst

end Arena

end MergeForm
