import NameAudit.Span

/-!
Positions in a source text.  A cursor pairs a byte offset with the characters that follow it, and
every movement goes forward by whole characters, so that an offset is always the byte length of the
characters passed.
-/
namespace NameAudit

/-- Number of bytes that the characters take in UTF-8. -/
def Text.byteLength : List Char → Nat
  | [] => 0
  | c :: cs => c.utf8Size + Text.byteLength cs

/-- A byte offset together with the characters from there on. -/
structure Cursor where
  offset : Nat
  rest : List Char
  deriving DecidableEq, Inhabited, Repr

namespace Cursor

/-- The start of a source text. -/
def ofSource (source : List Char) : Cursor := ⟨0, source⟩

/-- Passes at most `n` characters. -/
def skip : Nat → Cursor → Cursor
  | 0, c => c
  | _ + 1, ⟨offset, []⟩ => ⟨offset, []⟩
  | n + 1, ⟨offset, c :: cs⟩ => skip n ⟨offset + c.utf8Size, cs⟩

/-- Passes the longest run of characters that satisfy a test. -/
def skipWhile (p : Char → Bool) (c : Cursor) : Cursor := go c.offset c.rest
where
  /-- The same on the two parts of a cursor. -/
  go (offset : Nat) : List Char → Cursor
    | [] => ⟨offset, []⟩
    | c :: cs => if p c then go (offset + c.utf8Size) cs else ⟨offset, c :: cs⟩

/-- Passes the characters that begin before a byte offset. -/
def seek (c : Cursor) (target : Nat) : Cursor := go c.offset c.rest
where
  /-- The same on the two parts of a cursor. -/
  go (offset : Nat) : List Char → Cursor
    | [] => ⟨offset, []⟩
    | c :: cs => if offset < target then go (offset + c.utf8Size) cs else ⟨offset, c :: cs⟩

/-- The characters from a cursor up to a byte offset. -/
def upTo (c : Cursor) (stop : Nat) : List Char := go c.offset c.rest
where
  /-- The same on the two parts of a cursor. -/
  go (offset : Nat) : List Char → List Char
    | [] => []
    | c :: cs => if offset < stop then c :: go (offset + c.utf8Size) cs else []

/-- The span from an earlier offset to the cursor. -/
def spanFrom (c : Cursor) (start : Nat) : Span := ⟨start, c.offset⟩

/-- `d` is reached from `c` by passing exactly the characters `passed`. -/
def Passes (c : Cursor) (passed : List Char) (d : Cursor) : Prop :=
  c.rest = passed ++ d.rest ∧ d.offset = c.offset + Text.byteLength passed

theorem length_rest_skip (n : Nat) (c : Cursor) :
    (c.skip n).rest.length = c.rest.length - n := by
  induction n generalizing c with
  | zero => simp [skip]
  | succ n ih =>
    obtain ⟨offset, rest⟩ := c
    cases rest with
    | nil => simp [skip]
    | cons c cs => simp [skip, ih]

theorem length_rest_skipWhile_le (p : Char → Bool) (c : Cursor) :
    (c.skipWhile p).rest.length ≤ c.rest.length := by
  suffices ∀ cs offset, (skipWhile.go p offset cs).rest.length ≤ cs.length from this c.rest c.offset
  intro cs
  induction cs with
  | nil => simp [skipWhile.go]
  | cons c cs ih =>
    intro offset
    simp only [skipWhile.go]
    split
    · exact Nat.le_succ_of_le (ih _)
    · simp

end Cursor
end NameAudit
