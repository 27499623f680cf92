import NameAudit.Proofs.NameTexts
import NameAudit.Parser.Expression

/-!
How scanning and parsing fail. The scanner reports an error on no token (`token_unnamed`), and an expression
that cannot be read again is refused as an invalid target (`Expr.toTarget_refuses`). So an escape is refused
while a token is scanned, or in a string that was scanned, but never in an identifier that was scanned
(`ParseFailure.Arises`).
-/
namespace NameAudit

/-! ### The scanner -/

namespace Scan

/-- A scan that fails reports its error on no token. -/
def Unnamed {α : Type} (r : Except SyntaxError α) : Prop := ∀ e, r = .error e → e.found = none

section
variable {α β : Type} {r : Except SyntaxError α}

theorem unnamed_ok {a : α} : Unnamed (.ok a : Except SyntaxError α) := by
  rintro _ ⟨⟩

theorem unnamed_fail {cause : SyntaxError.Cause} {start stop : Nat} :
    Unnamed (fail cause start stop : Except SyntaxError α) := by
  rintro _ ⟨⟩
  rfl

/-- An error that is passed on. -/
theorem Unnamed.error {e : SyntaxError} (unnamed : Unnamed r) (failed : r = .error e) :
    Unnamed (.error e : Except SyntaxError β) := by
  rintro _ ⟨⟩
  exact unnamed e failed

theorem name_unnamed (escaped : Bool) (c : Cursor) : Unnamed (name escaped c) := by
  fun_induction name escaped c with
  | case1 escaped c d cs here ch n decoded ih => exact ih
  | case2 => exact unnamed_fail
  | case3 => exact unnamed_fail
  | case4 => exact unnamed_fail
  | case5 => exact unnamed_ok

theorem word_unnamed (c : Cursor) : Unnamed (word c) := by
  unfold word
  split
  next failed => exact (name_unnamed false c).error failed
  · exact unnamed_ok

theorem privateName_unnamed (c : Cursor) : Unnamed (privateName c) := by
  unfold privateName
  dsimp only
  split
  · split
    · split
      next failed => exact (name_unnamed false (c.skip 1)).error failed
      · exact unnamed_ok
    · exact unnamed_fail
  · exact unnamed_fail

theorem number_unnamed (c : Cursor) : Unnamed (number c) := by
  unfold number
  split
  · exact unnamed_fail
  · dsimp only
    split
    · split
      · exact unnamed_fail
      · exact unnamed_ok
    · exact unnamed_ok

theorem string_unnamed (c : Cursor) : Unnamed (string c) := by
  unfold string
  split
  · exact unnamed_fail
  · split
    · exact unnamed_ok
    · exact unnamed_fail

theorem regex_unnamed (c : Cursor) : Unnamed (regex c) := by
  unfold regex
  dsimp only
  split
  · exact unnamed_ok
  · exact unnamed_fail

theorem template_unnamed (closed substitution : TokenKind) (c : Cursor) :
    Unnamed (template closed substitution c) := by
  unfold template
  dsimp only
  split
  · exact unnamed_ok
  · exact unnamed_ok
  · exact unnamed_fail

theorem punctuator_unnamed (c : Cursor) : Unnamed (punctuator c) := by
  unfold punctuator
  split
  · exact unnamed_ok
  · exact unnamed_fail

theorem lexeme_unnamed (expecting : Expecting) (c : Cursor) : Unnamed (lexeme expecting c) := by
  unfold lexeme
  split
  · exact unnamed_ok
  · split_ifs
    · exact word_unnamed c
    · exact privateName_unnamed c
    · exact number_unnamed c
    · exact number_unnamed c
    · exact string_unnamed c
    · exact template_unnamed _ _ c
    · exact regex_unnamed c
    · exact punctuator_unnamed c

theorem trivia_unnamed (seen : Trivia) (c : Cursor) : Unnamed (trivia seen c) := by
  fun_induction trivia seen c with
  | case1 seen c tail here ih => exact ih
  | case2 => exact unnamed_fail
  | case3 seen c cs here d closed ih => exact ih
  | case4 seen c ch tail line block here ends ih => exact ih
  | case5 seen c ch tail line block here stays space ih => exact ih
  | case6 => exact unnamed_ok
  | case7 => exact unnamed_ok

theorem token_unnamed (expecting : Expecting) (c : Cursor) : Unnamed (token expecting c) := by
  unfold token
  split
  next failed => exact (trivia_unnamed {} c).error failed
  next seen start _ =>
    split
    next failed => exact (lexeme_unnamed expecting start).error failed
    · exact unnamed_ok

theorem templateRest_unnamed (c : Cursor) : Unnamed (templateRest c) := by
  unfold templateRest
  split
  · split
    next failed => exact (template_unnamed _ _ c).error failed
    · exact unnamed_ok
  · exact unnamed_fail

theorem leadingDocs_unnamed (source : List Char) : Unnamed (leadingDocs source) := by
  unfold leadingDocs
  cases read : trivia {} (Cursor.ofSource source) with
  | error e => exact (trivia_unnamed _ _).error read
  | ok read => exact unnamed_ok

end
end Scan

/-! ### What is read again -/

/-- A reading that can fail only for what is no target. -/
def Refuses {α : Type} (x : Except SyntaxError α) : Prop :=
  ∀ e, x = .error e → e.cause = .invalidTarget ∧ e.found = none

section
variable {α β : Type} {x : Except SyntaxError α} {f : α → Except SyntaxError β}

theorem refuses_ok {a : α} : Refuses (.ok a : Except SyntaxError α) := by
  rintro _ ⟨⟩

theorem refuses_invalidTarget {span : Span} : Refuses (invalidTarget span : Except SyntaxError α) := by
  rintro _ ⟨⟩
  exact ⟨rfl, rfl⟩

theorem Refuses.bind (first : Refuses x) (next : ∀ a, Refuses (f a)) : Refuses (x >>= f) := by
  cases x with
  | error e =>
    rintro _ ⟨⟩
    exact first e rfl
  | ok a => exact next a

end

/-- An expression that cannot be read again as a pattern is refused as a target. -/
theorem Expr.toPattern_refuses (binding : Bool) (e : Expr) : Refuses (e.toPattern binding) := by
  refine Expr.toPattern.induct binding (fun e => Refuses (e.toPattern binding))
    (fun ms => Refuses (Member.toPatterns binding ms))
    (fun es => Refuses (Element.toPatterns binding es))
    ?ident ?destructuring ?array ?object ?boundMember ?member ?boundIndex ?index ?other
    ?noElement ?hole ?defaultedItem ?item ?spread ?earlySpread
    ?noMember ?defaultedProperty ?property ?accessor ?shorthand ?rest ?earlyRest e
  case ident => exact fun _ _ => refuses_ok
  case destructuring => exact fun _ => refuses_ok
  case array => exact fun _ _ ih => ih.bind fun _ => refuses_ok
  case object => exact fun _ _ ih => ih.bind fun _ => refuses_ok
  case boundMember =>
    intro span isOptional owner name bound
    rw [Expr.toPattern, if_pos bound]
    exact refuses_invalidTarget
  case member =>
    intro span isOptional owner name free
    rw [Expr.toPattern, if_neg free]
    exact refuses_ok
  case boundIndex =>
    intro span isOptional owner key bound
    rw [Expr.toPattern, if_pos bound]
    exact refuses_invalidTarget
  case index =>
    intro span isOptional owner key free
    rw [Expr.toPattern, if_neg free]
    exact refuses_ok
  case other =>
    intro e ident destructuring array object member index
    unfold Expr.toPattern
    split
    · exact (ident _ _ rfl).elim
    · exact (destructuring _ rfl).elim
    · exact (array _ _ rfl).elim
    · exact (object _ _ rfl).elim
    · exact (member _ _ _ _ rfl).elim
    · exact (index _ _ _ _ rfl).elim
    · exact refuses_invalidTarget
  case noElement => exact refuses_ok
  case hole => exact fun _ ih => ih.bind fun _ => refuses_ok
  case defaultedItem =>
    exact fun _ _ _ _ target ih => target.bind fun _ => ih.bind fun _ => refuses_ok
  case item =>
    intro e es plain target ih
    rw [Element.toPatterns]
    · exact target.bind fun _ => ih.bind fun _ => refuses_ok
    · exact plain
  case spread => exact fun _ target => target.bind fun _ => refuses_ok
  case earlySpread => exact fun _ _ _ => refuses_invalidTarget
  case noMember => exact refuses_ok
  case defaultedProperty =>
    exact fun _ _ _ _ _ _ target ih => target.bind fun _ => ih.bind fun _ => refuses_ok
  case property =>
    intro span key e ms plain target ih
    rw [Member.toPatterns]
    · exact target.bind fun _ => ih.bind fun _ => refuses_ok
    · exact plain
  case accessor =>
    intro span key value tail assigned valued
    rw [Member.toPatterns]
    · exact refuses_invalidTarget
    · exact assigned
    · exact valued
  case shorthand => exact fun _ _ _ _ ih => ih.bind fun _ => refuses_ok
  case rest => exact fun _ _ target => target.bind fun _ => refuses_ok
  case earlyRest => exact fun _ _ _ _ => refuses_invalidTarget

theorem Expr.toDestructuring_refuses (e : Expr) : Refuses e.toDestructuring := by
  refine (Expr.toPattern_refuses false e).bind fun p => ?_
  split
  · exact refuses_ok
  · exact refuses_invalidTarget

theorem Expr.toTarget_refuses (takesApart : Bool) (e : Expr) : Refuses (e.toTarget takesApart) := by
  unfold Expr.toTarget
  split
  · split
    · exact Expr.toDestructuring_refuses _
    · exact refuses_invalidTarget
  · split
    · exact Expr.toDestructuring_refuses _
    · exact refuses_invalidTarget
  · exact refuses_ok
  · exact refuses_ok
  · exact refuses_ok
  · exact refuses_invalidTarget

theorem Expr.toParam_refuses (isRest : Bool) (e : Expr) : Refuses (e.toParam isRest) := by
  unfold Expr.toParam
  split
  · exact (Expr.toPattern_refuses true _).bind fun _ => refuses_ok
  · exact (Expr.toPattern_refuses true _).bind fun _ => refuses_ok

/-- Reading arguments again as parameters fails only at what is no target. -/
theorem Parser.argsToParams_refuses (args : List Arg) : Refuses (argsToParams args) := by
  induction args with
  | nil => exact refuses_ok
  | cons arg args ih =>
    obtain ⟨span, isSpread, value⟩ := arg
    exact (value.toParam_refuses isSpread).bind fun _ => ih.bind fun _ => refuses_ok

theorem Parser.exprsToParams_refuses (es : List Expr) : Refuses (exprsToParams es) := by
  induction es with
  | nil => exact refuses_ok
  | cons e es ih => exact (e.toParam_refuses false).bind fun _ => ih.bind fun _ => refuses_ok

/-! ### The parser -/

/-- A failure that can arise: never for lack of depth, and for an escape only where the scanner met it or in
a string. -/
def ParseFailure.Arises : ParseFailure → Prop
  | .malformed e => e.cause = .invalidEscape → e.found = none ∨ e.found = some .string
  | .exhausted => False

theorem ParseFailure.Arises.ne_exhausted {e : ParseFailure} (arises : e.Arises) : e ≠ .exhausted := by
  rintro rfl
  exact arises

/-- A scan fails as a parser can. -/
theorem Scan.Unnamed.arises {α : Type} {r : Except SyntaxError α} {e : SyntaxError} (unnamed : Unnamed r)
    (failed : r = .error e) : (ParseFailure.malformed e).Arises := fun _ => .inl (unnamed e failed)

theorem Refuses.arises {α : Type} {x : Except SyntaxError α} {e : SyntaxError} (refuses : Refuses x)
    (failed : x = .error e) : (ParseFailure.malformed e).Arises := fun _ => .inl (refuses e failed).2

end NameAudit
