import NameAudit.Proofs.PatternTexts
import Mathlib.Data.List.Forall2

/-!
What a parser answers from a position of one text, and where it stands then (`Leads`), with rules for the
steps of a parser, for sequences of steps, for loops and for lists.
-/
namespace NameAudit

open Scan (token)

namespace Parser

/-- Wherever a parser stands at a position of a text, it gives an answer and stands at another one. -/
def Leads {α : Type} (text : List Char) (c : Cursor) (p : Parser α) (a : α) (d : Cursor) : Prop :=
  ∀ s, s.At text c → ∃ t, p s = .ok (a, t) ∧ t.At text d

section
variable {α β σ : Type} {text : List Char} {c d e : Cursor} {a : α} {b : β} {p : Parser α}
  {k : α → Parser β} {t u : Token}

theorem leads_pure (a : α) (c : Cursor) : Leads text c (pure a) a c :=
  fun s stands => ⟨s, rfl, stands⟩

theorem Leads.bind (first : Leads text c p a d) (next : Leads text d (k a) b e) :
    Leads text c (p >>= k) b e := by
  intro s stands
  obtain ⟨s', done, stands'⟩ := first s stands
  obtain ⟨s'', done', stands''⟩ := next s' stands'
  refine ⟨s'', ?_, stands''⟩
  show Except.bind (p s) (fun (a, t) => k a t) = .ok (b, s'')
  rw [done]
  exact done'

/-- A parser that does what a reader does. -/
theorem leads_of_reads {r : Reader α} (reads : Reads text p r) (answers : r c = .ok (a, d)) :
    Leads text c p a d := by
  intro s stands
  have done := reads s c stands
  rwa [answers] at done

theorem leads_look {expecting : Scan.Expecting} (read : token expecting c = .ok (t, d)) :
    Leads text c (look expecting) t c :=
  leads_of_reads (reads_look expecting) (look_eq_ok_iff.mpr ⟨rfl, d, read⟩)

theorem leads_take {expecting : Scan.Expecting} (read : token expecting c = .ok (t, d)) :
    Leads text c (take expecting) t d :=
  leads_of_reads (reads_take expecting) (scan_eq_ok_iff.mpr read)

theorem leads_require {kind : TokenKind} (read : token .operator c = .ok (t, d)) (same : t.kind = kind) :
    Leads text c (require kind) t d :=
  leads_of_reads (reads_require kind) (require_of_token read same)

theorem leads_eat {kind : TokenKind} (read : token .operator c = .ok (t, d)) (same : t.kind = kind) :
    Leads text c (eat kind) true d := by
  refine (leads_look read).bind ?_
  rw [if_pos (beq_iff_eq.mpr same)]
  exact (leads_take read).bind (leads_pure _ _)

theorem leads_leave {kind : TokenKind} (read : token .operator c = .ok (t, d)) (other : t.kind ≠ kind) :
    Leads text c (eat kind) false c := by
  refine (leads_look read).bind ?_
  rw [if_neg (by simpa using other)]
  exact leads_pure _ _

theorem leads_since (start : Nat) (c : Cursor) :
    Leads text c (since start) ⟨start, max c.offset start⟩ c := by
  intro s stands
  refine ⟨s, ?_, stands⟩
  rw [← stands.prevEnd]
  rfl

theorem leads_peekSecond (first : token .operand c = .ok (t, d))
    (second : token .operator d = .ok (u, e)) : Leads text c peekSecond u c := by
  refine leads_of_reads reads_peekSecond ?_
  simp only [Reader.peekSecond, scan_eq_ok_iff.mpr first, scan_eq_ok_iff.mpr second, bind, Except.bind]
  rfl

theorem leads_ofExcept {x : Except SyntaxError α} (same : x = .ok a) (c : Cursor) :
    Leads text c (ofExcept x) a c := by
  rw [same]
  exact leads_pure a c

theorem leads_nameOf {name : String} (names : t.Names name) (c : Cursor) :
    Leads text c (nameOf t) name c := by
  obtain ⟨_, named⟩ := names
  obtain ⟨decoded, found, rfl⟩ := Option.map_eq_some_iff.mp named
  unfold nameOf
  rw [found]
  exact leads_pure _ _

/-! ### Loops -/

theorem turns_mono {turn : σ → Parser (Turn σ β)} {n m : Nat} (le : n ≤ m) {x : σ} {s : ParserState}
    {answer : β × ParserState} (ran : turns turn n x s = .ok answer) :
    turns turn m x s = .ok answer := by
  induction n generalizing m x s with
  | zero => cases ran
  | succ n ih =>
    cases m with
    | zero => cases le
    | succ m =>
      simp only [turns, bind, StateT.bind, Except.bind] at ran ⊢
      cases first : turn x s with
      | error e =>
        rw [first] at ran
        cases ran
      | ok r =>
        obtain ⟨r, s'⟩ := r
        rw [first] at ran
        cases r with
        | again y => exact ih (Nat.le_of_succ_le_succ le) ran
        | done b => exact ran

theorem leads_loop_done {turn : σ → Parser (Turn σ β)} {x : σ}
    (done : Leads text c (turn x) (.done b) d) : Leads text c (loop turn x) b d := by
  intro s stands
  exact (done.bind (leads_pure b d) : Leads text c (turns turn (s.position.rest.length + 1) x) b d) s
    stands

/-- A turn that asks for another takes a character. -/
theorem leads_loop_again {turn : σ → Parser (Turn σ β)} {x y : σ}
    (again : Leads text c (turn x) (.again y) d) (lt : d.rest.length < c.rest.length)
    (onward : Leads text d (loop turn y) b e) : Leads text c (loop turn x) b e := by
  intro s stands
  obtain ⟨s', turned, stands'⟩ := again s stands
  obtain ⟨s'', ran, stands''⟩ := onward s' stands'
  refine ⟨s'', ?_, stands''⟩
  have le : s'.position.rest.length + 1 ≤ s.position.rest.length := by
    rw [stands.position, stands'.position]
    exact lt
  have more : turns turn (s.position.rest.length + 1) x s =
      turns turn s.position.rest.length y s' := by
    simp only [turns, bind, StateT.bind, Except.bind, turned]
  exact more.trans (turns_mono le ran)

end

/-! ### Lists -/

section
variable {α β : Type} {text : List Char} {c d e : Cursor} {t u : Token} {close : Punctuator}

theorem leads_comma {more ended : α} (comma : token .operator c = .ok (t, d))
    (separates : t.kind = .punct .comma) : Leads text c (afterItem close more ended) more d :=
  (leads_eat comma separates).bind (leads_pure _ _)

theorem leads_close {more ended : α} (apart : close ≠ .comma) (closing : token .operator c = .ok (t, d))
    (closes : t.kind = .punct close) : Leads text c (afterItem close more ended) ended d := by
  have other : t.kind ≠ .punct .comma := by
    rw [closes]
    exact fun same => apart (TokenKind.punct.inj same)
  exact (leads_leave closing other).bind ((leads_require closing closes).bind (leads_pure _ _))

/-- A list is read by another item parser as well, if each of its items is, before a comma or the closing
token. -/
structure Rereads (text : List Char) (close : Punctuator) (I : Cursor → α → Bool → Cursor → Prop)
    (R : α → β → Prop) (item : Parser (β × Bool)) (c : Cursor) : Prop where
  shrinks : ∀ c x isLast d, I c x isLast d → d.rest.length < c.rest.length
  each : ∀ {d x isLast e t f}, d.rest.length ≤ c.rest.length → I d x isLast e →
    token .operator e = .ok (t, f) → t.kind = .punct .comma ∨ t.kind = .punct close →
    ∃ y, R x y ∧ Leads text d item (y, isLast) e

variable {I : Cursor → α → Bool → Cursor → Prop} {R : α → β → Prop} {item : Parser (β × Bool)}

theorem ItemsBefore.leads (rereads : Rereads text close I R item c) {xs : List α}
    (before : ItemsBefore close I c xs d) :
    ∃ ys, List.Forall₂ R xs ys ∧ ∀ read f, Leads text d (loop (itemsTurn close item) ys) read f →
      Leads text c (loop (itemsTurn close item) []) read f := by
  induction before with
  | none => exact ⟨[], .nil, fun _ _ onward => onward⟩
  | next before ahead more one comma separates ih =>
    obtain ⟨ys, same, onward⟩ := ih
    have le := before.length_le rereads.shrinks
    obtain ⟨y, alike, reads⟩ := rereads.each le one comma (.inl separates)
    refine ⟨ys ++ [y], List.rel_append same (.cons alike .nil), fun read f rest => onward read f ?_⟩
    have lt := rereads.shrinks _ _ _ _ one
    have lt' := Scan.punct_length_lt comma separates
    refine leads_loop_again ?_ (by omega) rest
    exact (leads_leave ahead more).bind (reads.bind (leads_comma comma separates))

theorem ItemsWritten.leads (rereads : Rereads text close I R item c) (apart : close ≠ .comma)
    {xs : List α} {trailing : Bool} (written : ItemsWritten close I c ⟨xs, trailing⟩ d) :
    ∃ ys, List.Forall₂ R xs ys ∧ Leads text c (items close item) ⟨ys, trailing⟩ d := by
  cases written with
  | closed before closing closes =>
    obtain ⟨ys, same, onward⟩ := ItemsBefore.leads rereads before
    have empty : xs.isEmpty = ys.isEmpty := by
      cases same <;> rfl
    rw [empty]
    exact ⟨ys, same, onward _ _ (leads_loop_done ((leads_eat closing closes).bind (leads_pure _ _)))⟩
  | last before ahead more one closing closes =>
    obtain ⟨ys, same, onward⟩ := ItemsBefore.leads rereads before
    have le := before.length_le rereads.shrinks
    obtain ⟨y, alike, reads⟩ := rereads.each le one closing (.inr closes)
    refine ⟨ys ++ [y], List.rel_append same (.cons alike .nil), onward _ _ (leads_loop_done ?_)⟩
    refine (leads_leave ahead more).bind (reads.bind ?_)
    dsimp only
    split
    · exact (leads_require closing closes).bind (leads_pure _ _)
    · exact leads_close apart closing closes

end
end Parser
end NameAudit
