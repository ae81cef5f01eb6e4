import NestedRegex.Fault
import NestedRegex.Forest.Span

namespace NestedRegex.Word

/-- Words have 32 bits, and what passes this limit starts again at zero. -/
def limit : Nat :=
  0x100000000

/-- The word for an integer. There is none for those below zero. -/
def ofInt (i : Int) : Except Fault Nat :=
  if i < 0 then .error .belowZero else .ok (i.toNat % limit)

/-- The first position after a span, as a word. -/
def stop (s : Span) : Nat :=
  (s.start + s.length) % limit

/-- The outer span covers the whole of the inner one, as far as the words for their bounds tell. -/
def encloses (outer inner : Span) : Bool :=
  outer.seq = inner.seq ∧ outer.start ≤ inner.start ∧ stop inner ≤ stop outer

/-- A span that begins so much later. -/
def shifted (s : Span) (delta : Int) : Except Fault Span := do
  let start ← ofInt (s.start + delta)
  return { s with start }

/-- An enclosing span once `count` nodes stand in the place of `old`. -/
def stretched (outer old : Span) (count : Nat) : Except Fault Span := do
  let length ← ofInt (outer.length + (count - old.length))
  return { outer with length }

/-- A span inside `source`, carried along when the content of `source` moves to `start` of `seq`. -/
def carried (s source : Span) (seq : SeqName) (start : Nat) : Except Fault Span := do
  let lead ← ofInt (s.start - source.start)
  let start ← ofInt (start + lead)
  return { s with seq, start }

/-- Where a span goes when `count` nodes take the place of `old`; nowhere if the two share a
position. -/
def whenReplaced (s old : Span) (count : Nat) : Except Fault (Option Span) :=
  if s.seq ≠ old.seq ∨ stop s ≤ old.start then .ok (some s)
  else if stop old ≤ s.start then some <$> shifted s (count - old.length)
  else .ok none

/-- Where a span goes when two spans of different sequences exchange their content. -/
def whenExchanged (s a b : Span) : Except Fault (Option Span) :=
  if encloses a s then some <$> carried s a b.seq b.start
  else if encloses b s then some <$> carried s b a.seq a.start
  else if encloses s a then some <$> stretched s a b.length
  else if encloses s b then some <$> stretched s b a.length
  else if s.seq = a.seq then whenReplaced s a b.length
  else whenReplaced s b a.length

/-- Where a span goes when two spans of one sequence, `a` before `b`, exchange their content. The
nodes between them move by the difference of the two lengths. -/
def whenExchangedWithin (s a b : Span) : Except Fault (Option Span) := do
  if s.seq ≠ a.seq then
    return some s
  let delta : Int := b.length - a.length
  let start ← ofInt (b.start + delta)
  if encloses a s then some <$> carried s a a.seq start
  else if encloses b s then some <$> carried s b a.seq a.start
  else if stop s ≤ a.start ∨ stop b ≤ s.start then return some s
  else if stop a ≤ s.start ∧ stop s ≤ b.start then some <$> shifted s delta
  else if s.start ≤ a.start ∧ stop b ≤ stop s then return some s
  else return none

/-- Where a span goes when `a` and `b` exchange their content, `a` before `b` if they lie in one
sequence. -/
def whenSwapped (s a b : Span) : Except Fault (Option Span) :=
  if a.seq = b.seq then whenExchangedWithin s a b else whenExchanged s a b

end NestedRegex.Word
