import NameAudit.Text.Cursor

/-!
Positions that are reached by passing whole characters. An offset is fixed by the characters before it,
so what was passed can be read back from two offsets (`upTo_of_passes`), and a position can be found
again from its offset (`seek_of_passes`).
-/
namespace NameAudit

namespace Text

theorem byteLength_append (us vs : List Char) :
    byteLength (us ++ vs) = byteLength us + byteLength vs := by
  induction us with
  | nil => simp [byteLength]
  | cons u us ih => simp only [List.cons_append, byteLength, ih]; omega

theorem length_le_byteLength (cs : List Char) : cs.length ≤ byteLength cs := by
  induction cs with
  | nil => simp
  | cons c cs ih =>
    have size := c.utf8Size_pos
    simp only [List.length_cons, byteLength]
    omega

theorem byteLength_pos {cs : List Char} (some : cs ≠ []) : 0 < byteLength cs :=
  Nat.lt_of_lt_of_le (List.length_pos_iff.mpr some) (length_le_byteLength cs)

end Text

namespace Cursor

open Text (byteLength byteLength_append)

variable {c d e : Cursor} {us vs passed : List Char}

theorem Passes.refl (c : Cursor) : c.Passes [] c := ⟨rfl, rfl⟩

theorem Passes.trans (first : c.Passes us d) (second : d.Passes vs e) : c.Passes (us ++ vs) e := by
  obtain ⟨rest, offset⟩ := first
  obtain ⟨rest', offset'⟩ := second
  refine ⟨by rw [rest, rest', List.append_assoc], ?_⟩
  rw [offset', offset, byteLength_append]
  omega

theorem Passes.cons {offset : Nat} {ch : Char} {cs : List Char}
    (later : Passes ⟨offset + ch.utf8Size, cs⟩ passed d) :
    Passes ⟨offset, ch :: cs⟩ (ch :: passed) d := by
  obtain ⟨rest, offset'⟩ := later
  refine ⟨congrArg (ch :: ·) rest, ?_⟩
  rw [offset']
  simp only [byteLength]
  omega

theorem Passes.length (passes : c.Passes passed d) :
    c.rest.length = passed.length + d.rest.length := by
  rw [passes.1, List.length_append]

theorem Passes.offset_le (passes : c.Passes passed d) : c.offset ≤ d.offset := by
  rw [passes.2]
  omega

theorem Passes.offset_lt (passes : c.Passes passed d) (some : passed ≠ []) :
    c.offset < d.offset := by
  have := Text.byteLength_pos some
  rw [passes.2]
  omega

/-- What is passed on the way to two positions begins alike. -/
theorem Passes.between (us : List Char) (first : c.Passes us d) (whole : c.Passes (us ++ vs) e) :
    d.Passes vs e := by
  obtain ⟨rest, offset⟩ := first
  obtain ⟨rest', offset'⟩ := whole
  refine ⟨?_, by rw [offset', offset, byteLength_append]; omega⟩
  rw [rest, List.append_assoc] at rest'
  exact List.append_cancel_left rest'

theorem passes_skip (n : Nat) (c : Cursor) : c.Passes (c.rest.take n) (c.skip n) := by
  induction n generalizing c with
  | zero => simpa [skip] using Passes.refl c
  | succ n ih =>
    obtain ⟨offset, rest⟩ := c
    cases rest with
    | nil => exact Passes.refl _
    | cons ch cs => exact (ih ⟨offset + ch.utf8Size, cs⟩).cons

/-- Skipping as many characters as a text has passes the text. -/
theorem passes_skip_of_rest (us : List Char) (rest : c.rest = us ++ vs) : c.Passes us (c.skip us.length) := by
  have passes := c.passes_skip us.length
  rwa [rest, List.take_left] at passes

theorem passes_skipWhile (p : Char → Bool) (c : Cursor) :
    c.Passes (c.rest.takeWhile p) (c.skipWhile p) := by
  suffices ∀ cs offset, Passes ⟨offset, cs⟩ (cs.takeWhile p) (skipWhile.go p offset cs) from
    this c.rest c.offset
  intro cs
  induction cs with
  | nil => exact fun offset => Passes.refl _
  | cons ch cs ih =>
    intro offset
    by_cases accepted : p ch = true
    · simpa only [skipWhile.go, List.takeWhile_cons, accepted, if_true] using (ih _).cons
    · rw [skipWhile.go, if_neg accepted, List.takeWhile_cons_of_neg accepted]
      exact Passes.refl _

theorem rest_skipWhile (p : Char → Bool) (c : Cursor) :
    (c.skipWhile p).rest = c.rest.dropWhile p := by
  have passes := c.passes_skipWhile p
  have whole := List.takeWhile_append_dropWhile (p := p) (l := c.rest)
  exact List.append_cancel_left (passes.1.symm.trans whole.symm)

theorem skip_add (m n : Nat) (c : Cursor) : c.skip (m + n) = (c.skip m).skip n := by
  induction m generalizing c with
  | zero => simp [skip]
  | succ m ih =>
    obtain ⟨offset, rest⟩ := c
    rw [Nat.succ_add]
    cases rest with
    | nil => cases n <;> simp [skip]
    | cons ch cs => exact ih _

/-- A run that accepts the first character goes on after it. -/
theorem skipWhile_of_accepted {p : Char → Bool} {ch : Char} {cs : List Char}
    (here : c.rest = ch :: cs) (accepted : p ch = true) :
    c.skipWhile p = (c.skip 1).skipWhile p := by
  obtain ⟨offset, rest⟩ := c
  obtain rfl := here
  exact if_pos accepted

/-- A run that refuses the first character stands still. -/
theorem skipWhile_of_refused {p : Char → Bool} {ch : Char} {cs : List Char}
    (here : c.rest = ch :: cs) (refused : p ch = false) : c.skipWhile p = c := by
  obtain ⟨offset, rest⟩ := c
  obtain rfl := here
  exact if_neg (by simp [refused])

/-- A run ends before a character that it refuses. -/
theorem refused_of_skipWhile {p : Char → Bool} {ch : Char} {cs : List Char}
    (here : (c.skipWhile p).rest = ch :: cs) : p ch = false := by
  rw [rest_skipWhile] at here
  have refused := List.head_dropWhile_not p (l := c.rest) (by simp [here])
  simpa only [here, List.head_cons, Bool.not_eq_true] using refused

theorem upTo_of_passes (passes : c.Passes passed d) : c.upTo d.offset = passed := by
  suffices ∀ passed cs offset stop, stop = offset + byteLength passed →
      upTo.go stop offset (passed ++ cs) = passed by
    obtain ⟨rest, offset⟩ := passes
    rw [upTo, rest]
    exact this _ _ _ _ offset
  intro passed
  induction passed with
  | nil =>
    rintro (_ | ⟨ch, cs⟩) offset stop rfl
    · rfl
    · simp [upTo.go]
  | cons ch passed ih =>
    rintro cs offset stop rfl
    have size := ch.utf8Size_pos
    have before : offset < offset + byteLength (ch :: passed) := by
      simp only [byteLength]
      omega
    rw [List.cons_append, upTo.go, if_pos before]
    rw [ih cs (offset + ch.utf8Size) _ (by simp only [byteLength]; omega)]

theorem seek_of_passes (passes : c.Passes passed d) : c.seek d.offset = d := by
  suffices ∀ passed cs offset stop, stop = offset + byteLength passed →
      seek.go stop offset (passed ++ cs) = ⟨stop, cs⟩ by
    obtain ⟨rest, offset⟩ := passes
    rw [seek, rest]
    exact this _ _ _ _ offset
  intro passed
  induction passed with
  | nil =>
    rintro (_ | ⟨ch, cs⟩) offset stop rfl
    · rfl
    · simp [seek.go]
  | cons ch passed ih =>
    rintro cs offset stop rfl
    have size := ch.utf8Size_pos
    have before : offset < offset + byteLength (ch :: passed) := by
      simp only [byteLength]
      omega
    rw [List.cons_append, seek.go, if_pos before]
    exact ih cs (offset + ch.utf8Size) _ (by simp only [byteLength]; omega)

/-! ### Positions after a position -/

/-- A position is reached from another by passing characters. -/
def Reaches (c d : Cursor) : Prop := ∃ passed, c.Passes passed d

theorem Reaches.refl (c : Cursor) : c.Reaches c := ⟨[], .refl c⟩

theorem Reaches.trans (first : c.Reaches d) (second : d.Reaches e) : c.Reaches e :=
  let ⟨_, before⟩ := first
  let ⟨_, after⟩ := second
  ⟨_, before.trans after⟩

theorem Reaches.length_le (reaches : c.Reaches d) : d.rest.length ≤ c.rest.length := by
  obtain ⟨passed, passes⟩ := reaches
  rw [passes.length]
  omega

theorem Reaches.offset_le (reaches : c.Reaches d) : c.offset ≤ d.offset := by
  obtain ⟨_, passes⟩ := reaches
  exact passes.offset_le

/-- A position with less of the text after it stands further on. -/
theorem Reaches.offset_lt (reaches : c.Reaches d) (lt : d.rest.length < c.rest.length) :
    c.offset < d.offset := by
  obtain ⟨passed, passes⟩ := reaches
  refine passes.offset_lt ?_
  rintro rfl
  have := passes.length
  simp only [List.length_nil] at this
  omega

theorem reaches_skip (n : Nat) (c : Cursor) : c.Reaches (c.skip n) := ⟨_, passes_skip n c⟩

theorem reaches_skip_add (m n : Nat) (c : Cursor) : (c.skip m).Reaches (c.skip (m + n)) := by
  rw [skip_add]
  exact reaches_skip n _

theorem reaches_skipWhile (p : Char → Bool) (c : Cursor) : c.Reaches (c.skipWhile p) :=
  ⟨_, passes_skipWhile p c⟩

theorem Reaches.cons {offset : Nat} {ch : Char} {cs : List Char}
    (later : Reaches ⟨offset + ch.utf8Size, cs⟩ d) : Reaches ⟨offset, ch :: cs⟩ d :=
  later.elim fun _ passes => ⟨_, passes.cons⟩

theorem reaches_seek (c : Cursor) (target : Nat) : c.Reaches (c.seek target) := by
  suffices ∀ cs offset, Reaches ⟨offset, cs⟩ (seek.go target offset cs) from this c.rest c.offset
  intro cs
  induction cs with
  | nil => exact fun _ => .refl _
  | cons ch cs ih =>
    intro offset
    simp only [seek.go]
    split
    · exact (ih _).cons
    · exact .refl _

/-- A position other than where one stands is reached after the first character. -/
theorem Reaches.after_first (reaches : c.Reaches d) (moved : d ≠ c) : (c.skip 1).Reaches d := by
  obtain ⟨passed, passes⟩ := reaches
  obtain ⟨offset, rest⟩ := c
  cases passed with
  | nil =>
    obtain ⟨stop, after⟩ := d
    obtain ⟨same, still⟩ := passes
    refine (moved ?_).elim
    rw [Cursor.mk.injEq]
    exact ⟨still, same.symm⟩
  | cons ch passed =>
    obtain ⟨here, _⟩ := id passes
    obtain rfl := here
    exact ⟨passed, Passes.between [ch] ⟨rfl, rfl⟩ passes⟩

/-- An offset at which a character begins, or the text ends, from a position on. -/
def Boundary (c : Cursor) (offset : Nat) : Prop := ∃ d, c.Reaches d ∧ d.offset = offset

theorem Boundary.here (c : Cursor) : c.Boundary c.offset := ⟨c, .refl c, rfl⟩

theorem Boundary.of_reaches (reaches : c.Reaches d) : c.Boundary d.offset := ⟨d, reaches, rfl⟩

theorem Boundary.before {offset : Nat} (reaches : c.Reaches d) (boundary : d.Boundary offset) :
    c.Boundary offset :=
  let ⟨e, further, same⟩ := boundary
  ⟨e, reaches.trans further, same⟩

theorem Boundary.cons {offset stop : Nat} {ch : Char} {cs : List Char}
    (later : Boundary ⟨offset + ch.utf8Size, cs⟩ stop) : Boundary ⟨offset, ch :: cs⟩ stop :=
  later.before (Reaches.refl _).cons

/-- The boundaries of a whole text are the lengths of its beginnings. -/
theorem boundary_ofSource_iff {source : List Char} {offset : Nat} :
    (ofSource source).Boundary offset ↔ ∃ us vs, source = us ++ vs ∧ offset = byteLength us := by
  constructor
  · rintro ⟨d, ⟨us, rest, offset⟩, rfl⟩
    refine ⟨us, d.rest, rest, ?_⟩
    rw [offset]
    simp [ofSource]
  · rintro ⟨us, vs, rfl, rfl⟩
    exact ⟨⟨byteLength us, vs⟩, ⟨us, rfl, by simp [ofSource]⟩, rfl⟩

/-- Nothing follows the last offset of a text. -/
theorem rest_of_offset {source : List Char} (reached : (ofSource source).Reaches d)
    (ended : d.offset = byteLength source) : d.rest = [] := by
  obtain ⟨passed, rest, offset⟩ := reached
  have same : source = passed ++ d.rest := rest
  have length : d.offset = byteLength passed := by simpa [ofSource] using offset
  rw [same, byteLength_append, length] at ended
  cases here : d.rest with
  | nil => rfl
  | cons ch cs =>
    rw [here] at ended
    have := Text.byteLength_pos (List.cons_ne_nil ch cs)
    omega

theorem Boundary.le_byteLength {source : List Char} {offset : Nat}
    (boundary : (ofSource source).Boundary offset) : offset ≤ byteLength source := by
  obtain ⟨us, vs, rfl, rfl⟩ := boundary_ofSource_iff.mp boundary
  rw [byteLength_append]
  omega

/-- A position of a text lies within it. -/
theorem Reaches.offset_le_byteLength {source : List Char} (reached : (ofSource source).Reaches c) :
    c.offset ≤ byteLength source :=
  (Boundary.of_reaches reached).le_byteLength

end Cursor
end NameAudit
