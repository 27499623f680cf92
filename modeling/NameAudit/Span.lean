/-!
Byte ranges of a source text.  A span counts UTF-8 bytes from the start of the text and holds the
bytes from `start` up to, but not including, `stop`.
-/
namespace NameAudit

/-- The bytes `[start, stop)` of a text. -/
structure Span where
  start : Nat
  stop : Nat
  deriving DecidableEq, Inhabited, Repr

namespace Span

/-- Number of bytes covered; a span that stops before it starts covers none. -/
def length (s : Span) : Nat := s.stop - s.start

def isEmpty (s : Span) : Bool := s.length == 0

/-- The smallest span that covers both. -/
def join (a b : Span) : Span := ⟨min a.start b.start, max a.stop b.stop⟩

/-- The inner span lies within the outer one. -/
def Within (inner outer : Span) : Prop := outer.start ≤ inner.start ∧ inner.stop ≤ outer.stop

theorem within_join_left (a b : Span) : a.Within (a.join b) := by
  simp only [Within, join]; omega

theorem within_join_right (a b : Span) : b.Within (a.join b) := by
  simp only [Within, join]; omega

end Span
end NameAudit
