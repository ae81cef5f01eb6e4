import NestedRegex.SeqName

namespace NestedRegex

/-- The `length` consecutive children of `seq` that begin at `start`. -/
structure Span where
  seq : SeqName
  start : Nat
  length : Nat
  deriving DecidableEq

namespace Span

/-- The first position after the span. -/
def stop (s : Span) : Nat :=
  s.start + s.length

def isEmpty (s : Span) : Bool :=
  s.length = 0

/-- A span such as `SeqId(3)[1..4]`. -/
def text (s : Span) : String :=
  s.seq.text ++ "[" ++ s.start.repr ++ ".." ++ s.stop.repr ++ "]"

/-- Two spans of one sequence overlap when each begins before the other stops. So an empty span
overlaps a span that strictly surrounds its position, which a splice there would cut in two. -/
def overlaps (s t : Span) : Bool :=
  s.seq = t.seq ∧ s.start < t.stop ∧ t.start < s.stop

/-- The same, where `stop` says where spans stop. -/
def overlapsUpTo (stop : Span → Nat) (s t : Span) : Bool :=
  s.seq = t.seq ∧ s.start < stop t ∧ t.start < stop s

/-- The outer span covers the whole of the inner one. -/
def encloses (outer inner : Span) : Bool :=
  outer.seq = inner.seq ∧ outer.start ≤ inner.start ∧ inner.stop ≤ outer.stop

/-- The order of two spans of one sequence: by start, then by stop. -/
def before (s t : Span) : Bool :=
  s.start < t.start ∨ s.start = t.start ∧ s.stop < t.stop

/-- The same, where `stop` says where spans stop. -/
def beforeUpTo (stop : Span → Nat) (s t : Span) : Bool :=
  s.start < t.start ∨ s.start = t.start ∧ stop s < stop t

/-- An enclosing span once `count` nodes stand in the place of `old`. -/
def stretched (outer old : Span) (count : Nat) : Span :=
  { outer with length := outer.length + count - old.length }

/-- Where a span goes when `count` nodes take the place of `old`; nowhere if the two share a
position. -/
def whenReplaced (s old : Span) (count : Nat) : Option Span :=
  if s.seq ≠ old.seq ∨ s.stop ≤ old.start then some s
  else if old.stop ≤ s.start then some { s with start := s.start + count - old.length }
  else none

/-- A span inside `source`, carried along when the content of `source` moves to `start` of `seq`. -/
def carried (s source : Span) (seq : SeqName) (start : Nat) : Span :=
  { s with seq, start := start + (s.start - source.start) }

/-- Where a span goes when two spans of different sequences exchange their content. -/
def whenExchanged (s a b : Span) : Option Span :=
  if a.encloses s then some (s.carried a b.seq b.start)
  else if b.encloses s then some (s.carried b a.seq a.start)
  else if s.encloses a then some (s.stretched a b.length)
  else if s.encloses b then some (s.stretched b a.length)
  else if s.seq = a.seq then s.whenReplaced a b.length
  else s.whenReplaced b a.length

/-- Where a span goes when two spans of one sequence, `a` before `b`, exchange their content. The
nodes between them move by the difference of the two lengths. -/
def whenExchangedWithin (s a b : Span) : Option Span :=
  if s.seq ≠ a.seq then some s
  else if a.encloses s then some (s.carried a a.seq (b.start + b.length - a.length))
  else if b.encloses s then some (s.carried b a.seq a.start)
  else if s.stop ≤ a.start ∨ b.stop ≤ s.start then some s
  else if a.stop ≤ s.start ∧ s.stop ≤ b.start then
    some { s with start := s.start + b.length - a.length }
  else if s.start ≤ a.start ∧ b.stop ≤ s.stop then some s
  else none

/-- Where a span goes when `a` and `b` exchange their content, `a` before `b` if they lie in one
sequence. -/
def whenSwapped (s a b : Span) : Option Span :=
  if a.seq = b.seq then s.whenExchangedWithin a b else s.whenExchanged a b

theorem overlaps_comm (s t : Span) : s.overlaps t = t.overlaps s := by
  simp only [overlaps, eq_comm (a := s.seq), decide_eq_decide]
  exact ⟨fun ⟨h, a, b⟩ => ⟨h, b, a⟩, fun ⟨h, a, b⟩ => ⟨h, b, a⟩⟩

theorem encloses_refl (s : Span) : s.encloses s = true := by
  simp [encloses]

end Span

end NestedRegex
