import MergeForm.Text

/-! Source spans: half-open intervals of byte offsets.  Nothing forces the end past the start, and
the interval from 0 to 0 stands for code that has no source. -/

namespace MergeForm

/-- The bytes from `start` up to and without `stop`. -/
structure Span where
  start : UInt32
  stop : UInt32
  deriving DecidableEq, Hashable

structure SpanOverflow where
  offset : Nat
  deriving DecidableEq

namespace SpanOverflow

def message (e : SpanOverflow) : String :=
  "byte offset " ++ Text.nat e.offset ++ " does not fit in a 32-bit span"

end SpanOverflow

namespace Span

/-- The span of code that has no source. -/
def dummy : Span := ⟨0, 0⟩

instance : Inhabited Span := ⟨dummy⟩

def isDummy (s : Span) : Bool := s == dummy

/-- The number of bytes covered, 0 where the end comes before the start. -/
def length (s : Span) : Nat := s.stop.toNat - s.start.toNat

def isEmpty (s : Span) : Bool := s.stop ≤ s.start

/-- The smallest span that covers both. -/
def merge (s t : Span) : Span := ⟨min s.start t.start, max s.stop t.stop⟩

def offset? (n : Nat) : Except SpanOverflow UInt32 :=
  if n < UInt32.size then .ok n.toUInt32 else .error ⟨n⟩

/-- The span of two offsets; the start is looked at before the end. -/
def ofOffsets? (start stop : Nat) : Except SpanOverflow Span := do
  let start ← offset? start
  let stop ← offset? stop
  return ⟨start, stop⟩

/-- The two offsets, as in `3..4`. -/
def text (s : Span) : String := Text.interval s.start.toNat s.stop.toNat

end Span

end MergeForm
